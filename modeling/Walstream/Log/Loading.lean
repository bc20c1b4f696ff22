import Walstream.Log.Interference

/-!
# Reading what changes

The two objects that are not immutable are the manifest and the topic metadata. This file
follows the reads of both, the check whether a snapshot is stale, the creation of the
metadata, and the start of a draft from a loaded manifest.
-/

namespace Walstream.Log

open Interaction PartitionLog Scene

variable {Client : Type} {Y : Service Client} {g : Genesis Y.log} {cl : Client}
  {C : Company Y g cl} {base : Option Body} {w : World Y g}

/-! ## Single requests -/

theorem ends_perform {c : Cmd Body} {Q : Resp c → World Y g → Prop} {F : LogError → World Y g → Prop}
    (h : ∀ w₁, C.rely w w₁ → ∀ r s,
      Bucket.Executes (Y.faults cl) Y.log.crates.size cl c w₁.bucket r s →
        ∃ w₂, Guarantee cl w₁ w₂ ∧ w₂.bucket = s ∧ Q r w₂) :
    C.arena.Ends (Engine.perform c) w Q F :=
  Arena.ends_lift (p := Prog.perform c) h

theorem ends_check {α : Type} {r : Except LogError α} {Q : α → World Y g → Prop}
    {F : LogError → World Y g → Prop} (hok : ∀ a, r = .ok a → Q a w)
    (herror : ∀ x, r = .error x → F x w) : C.arena.Ends (Engine.check r) w Q F := by
  cases r with
  | ok a => exact hok a rfl
  | error x => exact herror x rfl

theorem ends_check_bind {α β : Type} {r : Except LogError β} {f : β → Engine α}
    {Q : α → World Y g → Prop} {F : LogError → World Y g → Prop}
    (hok : ∀ b, r = .ok b → C.arena.Ends (f b) w Q F) (herror : ∀ x, r = .error x → F x w) :
    C.arena.Ends (do f (← Engine.check r)) w Q F := by
  cases r with
  | ok b => exact hok b rfl
  | error x => exact herror x rfl

/-- A read is answered from the bucket at one moment. -/
theorem ends_get {path : String} (hw : C.At base w) {F : LogError → World Y g → Prop} :
    C.arena.Ends (Engine.perform (.get path)) w (fun r w' => C.At base w' ∧
      Got (Y.faults cl) Y.log.crates.size w'.bucket path r) F := by
  refine ends_perform fun w₁ hw₁ r s hexec => ?_
  obtain ⟨hgot, rfl⟩ := hexec
  exact ⟨w₁, Guarantee.refl w₁, rfl, (C.at_frame base).rely hw₁ hw, hgot⟩

/-- A conditional write succeeds, fails for reasons of its own, or is refused; a refusal can
be trusted unless refusals are misreported. -/
theorem ends_put (Landed Kept : World Y g → Prop) {path : String} {body : Body}
    {mode : PutMode Body} {F : LogError → World Y g → Prop}
    (hland : ∀ w₁, C.rely w w₁ → w₁.bucket.Admits path mode → ∃ w₂, Guarantee cl w₁ w₂ ∧
      w₂.bucket = w₁.bucket.change cl path (some body) ∧ Landed w₂)
    (hsend : ∀ w₁, C.rely w w₁ → ∃ w₂, Guarantee cl w₁ w₂ ∧
      w₂.bucket = w₁.bucket.send (.put cl path body mode))
    (hkeep : ∀ w₁, C.rely w w₁ → Kept w₁) :
    C.arena.Ends (Engine.perform (.put path body mode)) w (fun r w' => match r with
      | .ok version => version = body ∧ Landed w'
      | .error e => e = .generic ∧ (Y.faults cl).transport ∨ e.IsRefusal ∧
          (Kept w' ∧ (¬ w'.bucket.Admits path mode ∨ (Y.faults cl).misreport) ∨
            (Y.faults cl).misreport ∧ Landed w')) F := by
  -- what the store answers, and whether the write has arrived
  refine ends_perform fun w₁ hw₁ r s hexec => ?_
  have hput : Put (Y.faults cl) cl w₁.bucket path body mode r s := hexec
  cases hput with
  | written hadm =>
    obtain ⟨w₂, hw₂, hbucket, hlanded⟩ := hland w₁ hw₁ hadm
    exact ⟨w₂, hw₂, hbucket, rfl, hlanded⟩
  | refused he hnot =>
    exact ⟨w₁, Guarantee.refl w₁, rfl, .inr ⟨he, .inl ⟨hkeep w₁ hw₁, .inl hnot⟩⟩⟩
  | lost hf => exact ⟨w₁, Guarantee.refl w₁, rfl, .inl ⟨rfl, hf⟩⟩
  -- an unacknowledged write looks like a failure
  | unacknowledged hf hadm =>
    obtain ⟨w₂, hw₂, hbucket, -⟩ := hland w₁ hw₁ hadm
    exact ⟨w₂, hw₂, hbucket, .inl ⟨rfl, hf⟩⟩
  | delayed hf =>
    obtain ⟨w₂, hw₂, hbucket⟩ := hsend w₁ hw₁
    exact ⟨w₂, hw₂, hbucket, .inl ⟨rfl, hf⟩⟩
  -- a misreported one looks like a refusal
  | misreported hf he hadm =>
    obtain ⟨w₂, hw₂, hbucket, hlanded⟩ := hland w₁ hw₁ hadm
    exact ⟨w₂, hw₂, hbucket, .inr ⟨he, .inr ⟨hf, hlanded⟩⟩⟩
  | spurious hf he =>
    exact ⟨w₁, Guarantee.refl w₁, rfl, .inr ⟨he, .inl ⟨hkeep w₁ hw₁, .inr hf⟩⟩⟩

/-! ## The manifest -/

/-- What `load_manifest` returns when this is the content of the manifest object. -/
def snapshotOf (head : Option Body) : Option LoadedManifest :=
  head.map fun body => ⟨manifestOf (some body), some body⟩

@[simp] theorem snapshotOf_getD (head : Option Body) :
    (snapshotOf head).getD LoadedManifest.empty = ⟨manifestOf head, head⟩ := by
  cases head <;> rfl

@[simp] theorem snapshotOf_version (head : Option Body) :
    (snapshotOf head).bind (·.version) = head := by
  cases head <;> rfl

theorem accepted_broken {log : PartitionLog} {m : LogManifest} (h : log.Accepted m) (e : StoreError) :
    log.acceptManifest ⟨log.crates.size (.manifest m), .manifest m, .error e⟩ =
      .error (.objectStore e) := by
  have hsize : ¬ log.crates.size (.manifest m) > maxManifestBytes := by
    simp only [Accepted, acceptManifest, bind_eq_ok, rejectIf_eq_ok] at h
    obtain ⟨_, hsize, -⟩ := h
    exact hsize
  simp [acceptManifest, rejectIf, hsize, Crates.collectBounded, bind, Except.bind]

/-- A manifest that is in order is loaded as it is. -/
theorem loadManifestOf_ends {q : Int} (hw : C.At base w)
    (hq : ∀ w : World Y g, { Y.log with partition := q }.InOrder w.bucket.objects) :
    C.arena.Ends (Y.log.loadManifestOf q) w (fun loaded w' => C.At base w' ∧
        loaded = snapshotOf (w'.bucket.objects (Y.log.engine.manifestPath Y.log.topic q)))
      (fun x _ => x = .objectStore .generic ∧ (Y.faults cl).transport) := by
  unfold loadManifestOf
  refine Arena.ends_bind (ends_get hw) ?_
  rintro r w' - ⟨hat, hgot⟩
  cases hgot with
  | @found body ho =>
    -- a stored manifest is accepted, so what is loaded is what is stored
    obtain ⟨m, rfl, haccepted⟩ := hq w' _ ho
    refine ends_check_bind (fun loaded hloaded => Arena.ends_pure ⟨hat, ?_⟩) fun x hx => ?_
    · obtain rfl := Except.ok.inj (haccepted.symm.trans hloaded)
      rw [ho]
      rfl
    · have := haccepted.symm.trans hx
      cases this
  | missing ho => exact Arena.ends_pure ⟨hat, by rw [ho]; rfl⟩
  | @interrupted body hf ho =>
    obtain ⟨m, rfl, haccepted⟩ := hq w' _ ho
    -- an interrupted body gives the store's error, whatever it would have said
    refine ends_check_bind (fun loaded hloaded => ?_) fun x hx => ?_
    · have := (accepted_broken haccepted .generic).symm.trans hloaded
      cases this
    · exact ⟨(Except.error.inj ((accepted_broken haccepted .generic).symm.trans hx)).symm, hf⟩
  | failed hf => exact Arena.ends_throw ⟨rfl, hf⟩

theorem loadManifest_ends (hw : C.At base w) :
    C.arena.Ends Y.log.loadManifest w (fun loaded w' => C.At base w' ∧ loaded = snapshotOf w'.head)
      (fun x _ => x = .objectStore .generic ∧ (Y.faults cl).transport) :=
  loadManifestOf_ends hw fun w => w.sound.order

/-- `stale_missing` tells whether a missing object is due to a replaced manifest. -/
theorem staleMissing_ends {version : Option UpdateVersion} {error : LogError} (hw : C.At base w) :
    C.arena.Ends (Y.log.staleMissing version error) w (fun stale w' => C.At base w' ∧
        (stale = true → w'.head ≠ version) ∧
        (stale = false → error.isMissing = false ∨ w'.head = version))
      (fun x _ => x = .objectStore .generic ∧ (Y.faults cl).transport) := by
  unfold staleMissing
  by_cases hmissing : error.isMissing = true
  · rw [if_pos hmissing]
    refine Arena.ends_bind (loadManifest_ends hw) ?_
    rintro loaded w' - ⟨hat, rfl⟩
    exact Arena.ends_pure ⟨hat, by simp, fun h => .inr (by simpa using h)⟩
  · rw [if_neg hmissing]
    exact Arena.ends_pure ⟨hw, by simp, fun _ => .inl (by simpa using hmissing)⟩

/-! ## The topic -/

/-- The topic metadata exists, and `load_topic_metadata` accepts it. -/
def Established (log : PartitionLog) (objects : String → Option Body) (m : TopicMetadata) : Prop :=
  objects log.topicMetadataPath = some (.metadata m) ∧
    log.parseTopicMetadata ⟨log.crates.size (.metadata m), .metadata m, .ok (.metadata m)⟩ = .ok m

theorem Established.later {m : TopicMetadata} {w w' : World Y g}
    (h : Established Y.log w.bucket.objects m) (hw : w ≤ w') :
    Established Y.log w'.bucket.objects m := by
  have hle : Le Y.log w.scene w'.scene := hw
  exact ⟨hle.metadata h.1, h.2⟩

/-- The topic metadata gives the topic `n` partitions. -/
structure Registered (log : PartitionLog) (objects : String → Option Body) (n : Int) : Prop where
  body : objects log.topicMetadataPath = some (.metadata ⟨topicMetadataSchema, n⟩)
  valid : validatePartitionCount n = .ok ()

theorem Registered.later {n : Int} {w w' : World Y g} (h : Registered Y.log w.bucket.objects n)
    (hw : w ≤ w') : Registered Y.log w'.bucket.objects n := by
  have hle : Le Y.log w.scene w'.scene := hw
  exact ⟨hle.metadata h.body, h.valid⟩

/-- The topic metadata counts the partition of the log. -/
def Counted (log : PartitionLog) (objects : String → Option Body) : Prop :=
  ∃ n, Registered log objects n ∧ validatePartition log.partition n = .ok ()

theorem Counted.later {w w' : World Y g} (h : Counted Y.log w.bucket.objects) (hw : w ≤ w') :
    Counted Y.log w'.bucket.objects :=
  h.imp fun _ h => h.imp_left fun h => h.later hw

theorem Crates.collectBounded_body {crates : Crates} {result : GetResult Body} {maximum : Nat}
    {body : Body} (h : crates.collectBounded result maximum = .ok body) : result.body = .ok body := by
  unfold Crates.collectBounded at h
  split at h
  · cases h
  · rename_i body' hbody
    split at h
    · cases h
    · cases h
      exact hbody

/-- Metadata that is accepted was read completely. -/
theorem parseTopicMetadata_accepts {log : PartitionLog} {result : GetResult Body} {m : TopicMetadata}
    (h : log.parseTopicMetadata result = .ok m) : result.body = .ok (.metadata m) ∧
      m.schema = topicMetadataSchema ∧ validatePartitionCount m.partitionCount = .ok () := by
  simp only [parseTopicMetadata, bind_eq_ok, mapError_eq_ok] at h
  obtain ⟨_, -, body, hcollected, h⟩ := h
  cases body with
  | metadata metadata =>
    simp only [TopicMetadata.validate, bind_eq_ok, rejectIf_eq_ok, pure, Except.pure, Except.ok.injEq,
      ne_eq, not_not] at h
    obtain ⟨_, ⟨_, hschema, hvalid⟩, rfl⟩ := h
    exact ⟨Crates.collectBounded_body hcollected, hschema, hvalid⟩
  | _ => cases h

theorem Established.registered {log : PartitionLog} {objects : String → Option Body}
    {m : TopicMetadata} (h : Established log objects m) : Registered log objects m.partitionCount := by
  obtain ⟨-, hschema, hvalid⟩ := parseTopicMetadata_accepts h.2
  exact ⟨by rw [h.1, ← hschema], hvalid⟩

theorem parseTopicMetadata_fails {log : PartitionLog} {result : GetResult Body} :
    FailsWith (fun x => ¬ x.Malformed) (log.parseTopicMetadata result) := by
  have hmetadata : ∀ detail, ¬ (LogError.invalidTopicMetadata detail).Malformed :=
    fun _ => by simp [LogError.Malformed]
  refine failsWith_bind (failsWith_rejectIf fun _ => hmetadata _) fun _ _ => ?_
  refine failsWith_bind (failsWith_mapError fun e _ => ?_) fun body _ => ?_
  · cases e with
    | store source => simp [LogError.Malformed]
    | tooLarge => exact hmetadata _
  split
  · refine failsWith_bind (failsWith_bind (failsWith_rejectIf fun _ => hmetadata _) fun _ _ => ?_)
      fun _ _ => failsWith_ok
    unfold validatePartitionCount
    split
    · exact failsWith_ok
    · exact failsWith_error (hmetadata _)
  · exact failsWith_error (hmetadata _)

theorem Established.broken {log : PartitionLog} {objects : String → Option Body} {m : TopicMetadata}
    (h : Established log objects m) (e : StoreError) :
    log.parseTopicMetadata ⟨log.crates.size (.metadata m), .metadata m, .error e⟩ =
      .error (.objectStore e) := by
  obtain ⟨-, h⟩ := h
  have hsize : ¬ log.crates.size (.metadata m) > maxTopicMetadataBytes := by
    simp only [parseTopicMetadata, bind_eq_ok, rejectIf_eq_ok] at h
    exact h.choose_spec.1
  simp [parseTopicMetadata, rejectIf, hsize, Crates.collectBounded, bind, Except.bind]

/-- Why reading the topic may fail: never because of a malformed manifest, and if the metadata
is in order only because of the store. -/
def TopicFails (cl : Client) (w : World Y g) (x : LogError) : Prop :=
  ¬ x.Malformed ∧ ∀ m, Established Y.log w.bucket.objects m →
    x = .objectStore .generic ∧ (Y.faults cl).transport

theorem topicFails_transport (hf : (Y.faults cl).transport) :
    TopicFails cl w (.objectStore .generic) :=
  ⟨by simp [LogError.Malformed], fun _ _ => ⟨rfl, hf⟩⟩

/-- The metadata is read. -/
theorem loadTopicMetadata_ends (hw : C.At base w) :
    C.arena.Ends Y.log.loadTopicMetadata w (fun loaded w' => C.At base w' ∧
        (∀ m, Established Y.log w.bucket.objects m → loaded = some m) ∧
        ∀ m, loaded = some m → Established Y.log w'.bucket.objects m)
      (fun x _ => TopicFails cl w x) := by
  unfold loadTopicMetadata
  refine Arena.ends_bind (ends_get hw) ?_
  rintro r w' hle ⟨hat, hgot⟩
  -- metadata that was in order is what the store answers
  have hanswer : ∀ m, Established Y.log w.bucket.objects m →
      ∀ body, w'.bucket.objects Y.log.topicMetadataPath = some body → body = .metadata m := by
    intro m hm body hbody
    rw [(hm.later hle).1] at hbody
    exact (Option.some.inj hbody).symm
  cases hgot with
  | @found body ho =>
    refine ends_check_bind (fun loaded hloaded => Arena.ends_pure ⟨hat, fun m hm => ?_, ?_⟩)
      fun x hx => ⟨parseTopicMetadata_fails x hx, fun m hm => ?_⟩
    · obtain rfl := hanswer m hm body ho
      exact congrArg _ (Except.ok.inj (hloaded.symm.trans hm.2))
    · rintro m ⟨⟩
      obtain ⟨hbody, -⟩ := parseTopicMetadata_accepts hloaded
      obtain rfl := Except.ok.inj hbody
      exact ⟨ho, hloaded⟩
    · obtain rfl := hanswer m hm body ho
      cases hx.symm.trans hm.2
  | missing ho =>
    refine Arena.ends_pure ⟨hat, fun m hm => ?_, fun m hm => by cases hm⟩
    rw [(hm.later hle).1] at ho
    cases ho
  | @interrupted body hf ho =>
    refine ends_check_bind (fun loaded hloaded => ?_) fun x hx =>
      ⟨parseTopicMetadata_fails x hx, fun m hm => ⟨?_, hf⟩⟩
    · cases (parseTopicMetadata_accepts hloaded).1
    · obtain rfl := hanswer m hm body ho
      exact Except.error.inj (hx.symm.trans (hm.broken .generic))
  | failed hf => exact Arena.ends_throw (topicFails_transport hf)

/-- The number of partitions is read. -/
theorem topicPartitionCount_ends (hw : C.At base w) :
    C.arena.Ends Y.log.topicPartitionCount w (fun count w' => C.At base w' ∧
        ∀ m, Established Y.log w.bucket.objects m → count = some m.partitionCount)
      (fun x _ => TopicFails cl w x) := by
  unfold topicPartitionCount
  refine ends_check_bind (fun _ _ => ?_) fun x hx => ?_
  · refine Arena.ends_bind (loadTopicMetadata_ends hw) ?_
    rintro loaded w' hle ⟨hat, hloaded, -⟩
    cases loaded with
    | some metadata =>
      refine Arena.ends_pure ⟨hat, fun m hm => ?_⟩
      rw [Option.some.inj (hloaded m hm)]
    | none =>
      have hnot : ∀ m, ¬ Established Y.log w.bucket.objects m := fun m hm => nomatch hloaded m hm
      refine Arena.ends_bind (Arena.ends_mono
        (loadManifestOf_ends hat fun w => w.sound.order₀) (fun _ _ _ h => h) ?_) ?_
      · rintro x w'' - ⟨rfl, hf⟩
        exact topicFails_transport hf
      · rintro manifest w'' - ⟨hat', -⟩
        exact Arena.ends_pure ⟨hat', fun m hm => absurd hm (hnot m)⟩
  · rw [g.topic] at hx
    cases hx

/-- The partition exists. -/
theorem requirePartition_ends (hw : C.At base w) :
    C.arena.Ends Y.log.requirePartition w (fun _ w' => C.At base w') (fun x _ => ¬ x.Malformed ∧
      ∀ m, Established Y.log w.bucket.objects m →
        validatePartition Y.log.partition m.partitionCount = .ok () →
          x = .objectStore .generic ∧ (Y.faults cl).transport) := by
  unfold requirePartition
  refine Arena.ends_bind (Arena.ends_mono (topicPartitionCount_ends hw) (fun _ _ _ h => h)
    fun x _ _ hx => ⟨hx.1, fun m hm _ => hx.2 m hm⟩) ?_
  rintro count w' - ⟨hat, hcount⟩
  cases count with
  | none =>
    exact Arena.ends_throw ⟨by simp [LogError.Malformed], fun m hm _ => nomatch hcount m hm⟩
  | some count =>
    refine ends_check (fun _ _ => hat) fun x hx => ⟨?_, fun m hm hvalid => ?_⟩
    · unfold validatePartition at hx
      split at hx <;> cases hx
      simp [LogError.Malformed]
    · rw [Option.some.inj (hcount m hm), hvalid] at hx
      cases hx

/-! ## Creating the topic -/

/-- The metadata is created, or was created by somebody else. -/
theorem createTopicMetadata_ends (hw : C.At base w) {partitionCount : Int}
    (hvalid : validatePartitionCount partitionCount = .ok ()) :
    C.arena.Ends (Y.log.createTopicMetadata partitionCount) w
      (fun count w' => C.At base w' ∧ Registered Y.log w'.bucket.objects count)
      (fun x _ => ¬ x.Malformed) := by
  -- the metadata is another object than the manifest
  have hnot : ∀ cl' body, ¬ Publishes Y.log cl' (.put cl Y.log.topicMetadataPath body .create) :=
    fun cl' body hpub => manifestPath_ne_metadataPath g hpub.2.symm
  unfold createTopicMetadata
  refine Arena.ends_bind (ends_put
    (fun w => C.At base w ∧ Registered Y.log w.bucket.objects partitionCount) (C.At base)
    (fun w₁ hw₁ hadm => ?_) (fun w₁ hw₁ => ?_) fun w₁ hw₁ => (C.at_frame base).rely hw₁ hw) ?_
  -- the metadata is written
  · obtain ⟨s, hs, hsound, hle, hunharmed⟩ := w₁.sound.createMetadata cl
      (.metadata ⟨topicMetadataSchema, partitionCount⟩) hadm
    refine ⟨⟨s, hsound⟩, ⟨hle, fun cl' _ => hunharmed cl'⟩, hs, (C.at_frame base).step ?_
      (hunharmed cl).tally ((C.at_frame base).rely hw₁ hw), ?_, hvalid⟩
    · change s.bucket.objects _ = w₁.bucket.objects _
      rw [hs]
      simp [Function.update_of_ne (manifestPath_ne_metadataPath g)]
    · change s.bucket.objects _ = _
      rw [hs]
      simp
  -- it is sent, and may arrive later
  · exact ⟨⟨_, w₁.sound.send .metadata fun cl' _ hpub => absurd hpub (hnot cl' _)⟩,
      ⟨reroute_le, fun cl' _ => send_unharmed (hnot cl' _)⟩, rfl⟩
  -- the answer of the store decides
  · rintro (e | body) w' - hr
    · rcases hr with ⟨rfl, -⟩ | ⟨he, hr⟩
      · exact Arena.ends_throw (by simp [LogError.Malformed])
      · have hat : C.At base w' := by
          rcases hr with ⟨hat, -⟩ | ⟨-, hat, -⟩ <;> exact hat
        have hload := Arena.ends_mono (loadTopicMetadata_ends hat) (fun _ _ _ h => h)
          fun x _ _ hx => hx.1
        -- somebody else has created it, which is loaded instead
        cases e with
        | notFound => exact he.elim
        | generic => exact he.elim
        | precondition | alreadyExists =>
          refine Arena.ends_bind hload ?_
          rintro loaded w'' - ⟨hat', -, hloaded⟩
          cases loaded with
          | some metadata => exact Arena.ends_pure ⟨hat', (hloaded metadata rfl).registered⟩
          | none => exact Arena.ends_throw (by simp [LogError.Malformed])
    · exact Arena.ends_pure hr.2

/-- The topic exists, or is created. -/
theorem ensureTopic_ends (hw : C.At base w) (defaultPartitions : PartitionCount) :
    C.arena.Ends (Y.log.ensureTopic defaultPartitions) w
      (fun _ w' => C.At base w' ∧ Counted Y.log w'.bucket.objects) (fun x _ => ¬ x.Malformed) := by
  -- a partition out of range is the fault of the caller
  have hpartition : ∀ {count : Int} {x : LogError},
      validatePartition Y.log.partition count = .error x → ¬ x.Malformed := by
    intro count x hx
    unfold validatePartition at hx
    split at hx <;> cases hx
    simp [LogError.Malformed]
  unfold ensureTopic
  refine ends_check_bind (fun _ _ => ?_) fun x hx => ?_
  · refine Arena.ends_bind (Arena.ends_mono (loadTopicMetadata_ends hw) (fun _ _ _ h => h)
      fun x _ _ hx => hx.1) ?_
    rintro loaded w' - ⟨hat, -, hloaded⟩
    -- the partition has to be among those that are counted
    have hcheck : ∀ {count : Int} {w : World Y g}, C.At base w →
        Registered Y.log w.bucket.objects count → C.arena.Ends (do
          Engine.check (validatePartition Y.log.partition count)
          return count) w (fun _ w' => C.At base w' ∧ Counted Y.log w'.bucket.objects)
        (fun x _ => ¬ x.Malformed) := by
      intro count w hat hcount
      exact ends_check_bind (fun _ hpartition => Arena.ends_pure ⟨hat, count, hcount, hpartition⟩)
        fun x hx => hpartition hx
    -- the metadata is there, or is created with the default number
    cases loaded with
    | some metadata => exact hcheck hat (hloaded metadata rfl).registered
    | none =>
      refine Arena.ends_bind (Arena.ends_mono
        (loadManifestOf_ends hat fun w => w.sound.order₀) (fun _ _ _ h => h) ?_) ?_
      · rintro x w'' - ⟨rfl, -⟩
        simp [LogError.Malformed]
      · rintro manifest w'' - ⟨hat', -⟩
        refine ends_check_bind (fun _ _ => ?_) fun x hx => hpartition hx
        refine Arena.ends_bind (createTopicMetadata_ends hat' ?_) fun _ _ _ h => hcheck h.1 h.2
        -- a log that has a manifest already keeps the number of its partitions
        cases manifest with
        | none => exact defaultPartitions.valid
        | some _ => rfl
  · rw [g.topic] at hx
    cases hx

end Walstream.Log

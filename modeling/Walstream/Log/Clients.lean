import Walstream.Log.Publishing
import Walstream.Log.Selecting

/-!
# The methods of the log among worlds

Each method that a client calls, verified in the company of the others: what it returns is
right about the log at one moment of the call, and when it fails it does not blame metadata
that is in order.

- `appendBatches_ends`, `fetchBounded_ends`, `offsets_ends`.
-/

namespace Walstream.Log

open Interaction PartitionLog Scene

variable {Client : Type} {Y : Service Client} {g : Genesis Y.log} {cl : Client}
  {C : Company Y g cl} {w w₀ : World Y g}

/-- The error does not say that the metadata is malformed, as long as documents fit. -/
def Blameless (log : PartitionLog) (x : LogError) : Prop := Fits log → ¬ x.Malformed

theorem blameless_of_not_malformed {log : PartitionLog} {x : LogError} (h : ¬ x.Malformed) :
    Blameless log x := fun _ => h

theorem LogError.Reports.not_malformed {e : StoreError} {x : LogError} (h : x.Reports e) :
    ¬ x.Malformed := by
  rcases h with rfl | ⟨object, rfl⟩ <;> simp [LogError.Malformed]

/-! ## Appends -/

/-- The answer to a request of the client that began when the bucket was `s`. The request was
judged by the log at one moment; its new batches, if any, were added then by one publication of
the client. -/
structure Answered (Y : Service Client) (g : Genesis Y.log) (cl : Client) (s b : Bucket Client Body)
    (batches : List (List Record × String)) (expected : LogState → Prop) (result : AppendResult) :
    Prop where
  answer : ∃ es es' v commits d, b.history = es ++ es' ∧ s.history.length ≤ es.length ∧
    Chronicle Y g es v commits ∧ expected v ∧ judge v.producers batches (.start v.next) = .ok d ∧
    result = d.result ∧ (d.additions = [] ∨ ∃ e rest, es' = e :: rest ∧ e.client = cl ∧
      e.path = Y.log.manifestPath)

private theorem inspectBatch_failsWith {log : PartitionLog} (records : List Record) :
    FailsWith (fun x => ¬ x.Malformed) (log.inspectBatch records) := by
  unfold inspectBatch
  refine failsWith_bind ?_ fun _ _ => failsWith_bind ?_ fun _ _ => failsWith_bind ?_ fun _ _ =>
    failsWith_bind ?_ fun _ _ => ?_
  · unfold validateRecords
    split
    · simp [LogError.Malformed]
    · exact failsWith_bind (failsWith_rejectIf fun _ => by simp [LogError.Malformed])
        fun _ _ => failsWith_rejectIf fun _ => by simp [LogError.Malformed]
  · unfold validateTimestampSpan
    split <;> simp [LogError.Malformed]
  · simp [assignedRecords, LogError.Malformed]
  · unfold Crates.encodeRecords
    split <;> simp [LogError.Malformed]
  · exact failsWith_bind (failsWith_mapError fun _ _ => by simp [LogError.Malformed])
      fun _ _ => failsWith_bind (failsWith_rejectIf fun _ => by simp [LogError.Malformed])
        fun _ _ => failsWith_ok

private theorem failsWith_mapM {ε α β : Type} {P : ε → Prop} {f : α → Except ε β}
    (h : ∀ a, FailsWith P (f a)) (xs : List α) : FailsWith P (xs.mapM f) := by
  induction xs with
  | nil => exact failsWith_ok
  | cons x xs ih =>
    rw [List.mapM_cons]
    exact failsWith_bind (h x) fun _ _ => failsWith_bind ih fun _ _ => failsWith_ok

/-- The checks before the first request to the store are about the request. -/
theorem admitBatches_failsWith {log : PartitionLog} (batches : List (List Record)) :
    FailsWith (fun x => ¬ x.Malformed) (log.admitBatches batches) := by
  unfold admitBatches
  refine failsWith_bind ?_ fun _ _ => failsWith_bind ?_ fun _ _ => ?_
  · unfold validateTopic
    split <;> simp [LogError.Malformed]
  · unfold validatePartition
    split <;> simp [LogError.Malformed]
  · simp only [failsWith_bind_iff, failsWith_rejectIf_iff, failsWith_pure_iff]
    exact ⟨fun _ => by simp [LogError.Malformed], fun _ _ => ⟨fun _ => by simp [LogError.Malformed],
      fun _ _ => ⟨failsWith_mapM inspectBatch_failsWith batches,
        fun _ _ => ⟨fun _ => by simp [LogError.Malformed], fun _ _ => trivial⟩⟩⟩⟩

/-- The client's request is judged by the log of the loaded manifest. -/
theorem appendAttempts_ends {defaultPartitions : PartitionCount} {received : Nat}
    {batches : List (List Record)} {fingerprints : List String}
    (hop : Y.op cl = .append defaultPartitions (some received) batches)
    (hadmitted : Y.log.admitBatches batches = .ok fingerprints) (attempts : Nat) (hw₀ : w₀ ≤ w)
    (hat : C.At w₀.head w) :
    C.arena.Ends (Y.log.appendAttempts (batches.zip fingerprints) received attempts) w
      (fun result w' => Answered Y g cl w₀.bucket w'.bucket (batches.zip fingerprints)
        (fun v => C.alone → v = w₀.scene.state) result)
      (fun x _ => Blameless Y.log x) := by
  obtain ⟨-, -, -, -, hbatches⟩ := admitBatches_eq_ok hadmitted
  -- over the attempts that are left, each on the manifest that it loads
  induction attempts generalizing w with
  | zero => exact Arena.ends_throw (blameless_of_not_malformed (by simp [LogError.Malformed]))
  | succ attempts ih =>
    unfold appendAttempts
    refine Arena.ends_bind (Arena.ends_mono (loadManifest_ends hat) (fun _ _ _ h => h) ?_) ?_
    · rintro x _ - ⟨rfl, -⟩
      exact blameless_of_not_malformed (by simp [LogError.Malformed])
    rintro loaded w₁ hle₁ ⟨hat₁, rfl⟩
    have hw₁ : w₀ ≤ w₁ := le_trans hw₀ hle₁
    -- alone, the state is that of the call
    have hexpected : C.alone → w₁.scene.state = w₀.scene.state :=
      fun halone => World.state_eq hw₁ (hat₁.head halone)
    rw [snapshotOf_getD]
    refine Arena.ends_bind (Arena.ends_attempt
      ((rep_grounds (C.at_frame w₀.head) w₁.head w₁.scene.live).ends hat₁.begins
        (prepareAppend_drafts g.topic hbatches w₁.notes_coherent))) ?_
    rintro (x | ⟨result, _ | root⟩) w₂ hle₂ hout
    · -- the draft has failed: it starts anew if its manifest was replaced
      have hat₂ : C.At w₀.head w₂ ∧ Blameless Y.log x := by
        rcases hout with ⟨hrefused, n', hrep⟩ | ⟨cause, hreports, hexcuse | hexcuse⟩
        · exact ⟨hrep.frame, fun hfits => (hrefused.excused hfits).1⟩
        · exact ⟨hexcuse.1, blameless_of_not_malformed hreports.not_malformed⟩
        · exact ⟨hexcuse.1, blameless_of_not_malformed hreports.not_malformed⟩
      refine Arena.ends_bind (Arena.ends_mono (staleMissing_ends hat₂.1) (fun _ _ _ h => h) ?_) ?_
      · rintro x _ - ⟨rfl, -⟩
        exact blameless_of_not_malformed (by simp [LogError.Malformed])
      -- the manifest may have been replaced in the meantime
      rintro stale w₃ hle₃ ⟨hat₃, -⟩
      cases stale with
      | true => exact ih (le_trans hw₁ (le_trans hle₂ hle₃)) hat₃
      | false => exact Arena.ends_throw hat₂.2
    · -- every batch was known
      obtain ⟨n', -, -, d, hjudge, rfl, hnone, -⟩ := hout
      have hle : Le Y.log w₁.scene w₂.scene := hle₂
      obtain ⟨more, hmore⟩ := hle.history
      refine Arena.ends_pure ⟨w₁.bucket.history, more, w₁.scene.state, w₁.scene.commits, d, hmore.symm,
        ?_, w₁.sound.chronicle, hexpected, hjudge, rfl, .inl hnone⟩
      have hpast : Le Y.log w₀.scene w₁.scene := hw₁
      exact hpast.history.length_le
    -- there is something to append: the root is valid, and small enough for its page
    · obtain ⟨n', hn', hrep, d, hjudge, rfl, hne, objects', new, happended⟩ := hout
      have hw₂ : w₀ ≤ w₂ := le_trans hw₁ hle₂
      have hvalid : Y.log.validateRoot root = .ok () := validateRoot_eq_ok.mpr happended.coherent.valid
      refine ends_check_bind (fun _ _ => ?_) fun x hx => by cases hvalid.symm.trans hx
      dsimp only
      split
      · exact Arena.ends_throw (blameless_of_not_malformed (by simp [LogError.Malformed]))
      rename_i hsize
      -- the new root may be published in place of the manifest that was loaded
      have ticket : w₂.scene.Ticket Y cl w₁.head root :=
        hrep.ticket hn' w₁.notes_coherent (accepted_of_valid hvalid hsize) happended.coherent
          happended.objects (.append hop hadmitted hjudge hne happended.holds happended.renewed)
      have hle : Le Y.log w₁.scene w₂.scene := hle₂
      rw [mode_snapshotOf]
      refine Arena.ends_bind (publish_ends hw₂ hrep.frame
        (w₁.sound.coherent.extend fun _ _ => hle.made) ticket) ?_
      rintro (e | body) w₃ hle₃ hput
      -- the store has failed, or another append has come first
      · rcases hput with ⟨rfl, -⟩ | ⟨he, hat₃⟩
        · exact Arena.ends_throw (blameless_of_not_malformed (by simp [LogError.Malformed]))
        · cases e with
          | notFound | generic => exact he.elim
          | precondition | alreadyExists => exact ih (le_trans hw₂ hle₃) hat₃
      -- the publication is the one change of this call
      · obtain ⟨-, ⟨es, e, es', commits, hhistory, hlength, hclient, hpath, -, -, hchronicle⟩, -⟩ := hput
        exact Arena.ends_pure ⟨es, e :: es', w₁.scene.state, commits, d, hhistory, hlength,
          hchronicle, hexpected, hjudge, rfl, .inr ⟨e, es', rfl, hclient, hpath⟩⟩

/-- **Appends answer truthfully**: a request that succeeds was judged by the log at one moment
of the call, and its new batches were added then by one publication. -/
theorem appendBatches_ends {defaultPartitions : PartitionCount} {clock : Option Nat}
    {batches : List (List Record)}
    (hop : Y.op cl = .append defaultPartitions clock batches) (hat : C.At w.head w) :
    C.arena.Ends (Y.log.appendBatches defaultPartitions clock batches) w
      (fun result w' => ∃ fingerprints, Y.log.admitBatches batches = .ok fingerprints ∧
        Answered Y g cl w.bucket w'.bucket (batches.zip fingerprints)
          (fun v => C.alone → v = w.scene.state) result ∧ Counted Y.log w'.bucket.objects)
      (fun x _ => clock ≠ none → Blameless Y.log x) := by
  unfold appendBatches
  refine ends_check_bind (fun fingerprints hadmitted => ?_) fun x hx _ =>
    blameless_of_not_malformed (admitBatches_failsWith batches x hx)
  refine ends_check_bind (fun received hclock => ?_) fun x hx hsome => ?_
  · obtain rfl : clock = some received := okOr_eq_ok.mp hclock
    refine Arena.ends_bind (Arena.ends_mono (ensureTopic_ends hat defaultPartitions)
      (fun _ _ _ h => h) fun x _ _ hx _ => blameless_of_not_malformed hx) ?_
    rintro _ w₁ hle₁ ⟨hat₁, hcounted⟩
    exact Arena.ends_mono (appendAttempts_ends hop hadmitted _ hle₁ hat₁)
      (fun result w' hle h => ⟨fingerprints, hadmitted, h, hcounted.later hle⟩) fun _ _ _ h _ => h
  · exact absurd (okOr_eq_error.mp hx).1 hsome

/-! ## Fetches -/

/-- At one moment since the bucket was `s`, the whole fetch, run against the bucket of that
moment, comes out like this. -/
def Fetched (Y : Service Client) (s b : Bucket Client Body) (offset : Int) (maximumBytes : Nat)
    (allow : Bool) (result : Except LogError BoundedFetch) : Prop :=
  ∃ objects, s.During b objects ∧ Y.log.evaluate objects
    (Y.log.fetchSnapshot (Y.log.manifestIn objects) offset maximumBytes allow) = result

/-- Why a fetch fails: the offset was out of range at one moment, or the manifest was replaced
over and over, unless the store or the codec is to blame. -/
def FetchFails (Y : Service Client) (cl : Client) (s b : Bucket Client Body) (offset : Int)
    (maximumBytes : Nat) (allow : Bool) (x : LogError) : Prop :=
  ¬ x.Malformed ∧ (Kafka Y.log.crates → ¬ (Y.faults cl).transport →
    x = .contentionExhausted maxCasAttempts ∨
      Fetched Y s b offset maximumBytes allow (.error x) ∧ ∃ next, x = .offsetOutOfRange offset next)

theorem fetchFails_transport {s b : Bucket Client Body} {offset : Int} {maximumBytes : Nat}
    {allow : Bool} {x : LogError} (hx : ¬ x.Malformed) (hf : (Y.faults cl).transport) :
    FetchFails Y cl s b offset maximumBytes allow x := ⟨hx, fun _ hno => absurd hf hno⟩

/-- An object that is missing tells that the manifest was replaced. -/
theorem Excuse.stale {I : World Y g → Prop} {base : Option Body} {w' : World Y g} {cause : StoreError}
    {x : LogError} (h : Excuse I cl base w cause) (hreports : x.Reports cause) (hw : w ≤ w')
    (hstale : x.isMissing = false ∨ w'.head = base) : (Y.faults cl).transport := by
  rcases h.2 with ⟨-, hf⟩ | ⟨rfl, hlt⟩
  · exact hf
  · rcases hstale with hmissing | hhead
    · rcases hreports with rfl | ⟨object, rfl⟩ <;> cases hmissing
    · have hle : Le Y.log w.scene w'.scene := hw
      exact absurd (hlt.trans_le hle.revision) (w'.revision_of_head hhead).not_gt

theorem fetchAttempts_ends (offset : Int) (maximumBytes : Nat) (allow : Bool) (attempts : Nat)
    (hw₀ : w₀ ≤ w) (hat : C.At w₀.head w) :
    C.arena.Ends (Y.log.fetchAttempts offset maximumBytes allow attempts) w
      (fun fetched w' => Fetched Y w₀.bucket w'.bucket offset maximumBytes allow (.ok fetched))
      (fun x w' => FetchFails Y cl w₀.bucket w'.bucket offset maximumBytes allow x) := by
  -- over the attempts that are left
  induction attempts generalizing w with
  | zero => exact Arena.ends_throw ⟨by simp [LogError.Malformed], fun _ _ => .inl rfl⟩
  | succ attempts ih =>
    unfold fetchAttempts
    refine Arena.ends_bind (Arena.ends_mono (loadManifest_ends hat) (fun _ _ _ h => h) ?_) ?_
    · rintro x _ - ⟨rfl, hf⟩
      exact fetchFails_transport (by simp [LogError.Malformed]) hf
    rintro loaded w₁ hle₁ ⟨hat₁, rfl⟩
    have hw₁ : w₀ ≤ w₁ := le_trans hw₀ hle₁
    rw [snapshotOf_getD]
    -- the objects of the loaded manifest are those of a moment of the call
    have hduring : ∀ w', w₁ ≤ w' → w₀.bucket.During w'.bucket w₁.bucket.objects := by
      intro w' hle
      have hpast : Le Y.log w₀.scene w₁.scene := hw₁
      have hle : Le Y.log w₁.scene w'.scene := hle
      exact (Bucket.During.now hpast.history).later hle.moments
    -- the snapshot reads only, so that it is evaluated against that moment
    have hreads : Issues Cmd.Reads (Y.log.fetchSnapshot (manifestOf w₁.head) offset maximumBytes allow) :=
      fetchSnapshot_reads _ _ _ _
    have hdraft := (rep_grounds (C.at_frame w₀.head) w₁.head w₁.scene.live).ends_reads hat₁.begins hreads
      (drafts_eval (fetchSnapshot_drafts g.topic w₁.notes_coherent offset maximumBytes allow) hreads
        fun _ _ hc => w₁.notes_content hc)
    refine Arena.ends_bind (Arena.ends_attempt hdraft) ?_
    rintro (x | fetched) w₂ hle₂ hout
    -- the fetch has failed: an error of its own, or of a request
    · have hat₂ : C.At w₀.head w₂ := by
        rcases hout with ⟨-, n', hrep⟩ | ⟨cause, -, hexcuse⟩
        · exact hrep.frame
        · exact hexcuse.1
      have hmalformed : ¬ x.Malformed := by
        rcases hout with ⟨⟨⟨-, rfl⟩ | ⟨-, object, detail, rfl⟩, -⟩, -⟩ | ⟨cause, hreports, -⟩
        · simp [LogError.Malformed]
        · simp [LogError.Malformed]
        · exact hreports.not_malformed
      refine Arena.ends_bind (Arena.ends_mono (staleMissing_ends hat₂) (fun _ _ _ h => h) ?_) ?_
      · rintro x _ - ⟨rfl, hf⟩
        exact fetchFails_transport (by simp [LogError.Malformed]) hf
      rintro stale w₃ hle₃ ⟨hat₃, -, hnot⟩
      -- a stale manifest is loaded again
      cases stale with
      | true => exact ih (le_trans hw₁ (le_trans hle₂ hle₃)) hat₃
      -- the error is that of the moment
      | false =>
        refine Arena.ends_throw ⟨hmalformed, fun kafka hfaults => .inr ?_⟩
        rcases hout with ⟨⟨⟨-, hrange⟩ | ⟨hkafka, -⟩, heval⟩, -⟩ | ⟨cause, hreports, hexcuse⟩
        · exact ⟨⟨_, hduring w₃ (le_trans hle₂ hle₃), heval⟩, _, hrange⟩
        · exact absurd kafka hkafka
        · exact absurd (hexcuse.stale hreports hle₃ (hnot rfl)) hfaults
    -- so is the answer
    · obtain ⟨n', -, -, -, -, heval⟩ := hout
      exact Arena.ends_pure ⟨_, hduring w₂ hle₂, heval⟩

/-- **Fetches are coherent**: what a fetch returns was the answer at one moment of the call. -/
theorem fetchBounded_ends (offset : Int) (maximumBytes : Nat) (allow : Bool) (hat : C.At w.head w) :
    C.arena.Ends (Y.log.fetchBounded offset maximumBytes allow) w
      (fun fetched w' => Fetched Y w.bucket w'.bucket offset maximumBytes allow (.ok fetched))
      (fun x w' => ¬ x.Malformed ∧ ∀ m, Established Y.log w.bucket.objects m →
        validatePartition Y.log.partition m.partitionCount = .ok () → 0 ≤ offset →
          FetchFails Y cl w.bucket w'.bucket offset maximumBytes allow x) := by
  unfold fetchBounded
  refine ends_check_bind (fun _ _ => ?_) fun x hx => by cases g.topic.symm.trans hx
  refine Arena.ends_bind (Arena.ends_mono (requirePartition_ends hat) (fun _ _ _ h => h) ?_) ?_
  · rintro x w' - ⟨hmalformed, htopic⟩
    exact ⟨hmalformed, fun m hm hvalid _ => fetchFails_transport hmalformed (htopic m hm hvalid).2⟩
  rintro _ w₁ hle₁ hat₁
  split
  · rename_i hneg
    exact Arena.ends_throw ⟨by simp [LogError.Malformed], fun _ _ _ hoffset => absurd hneg hoffset.not_gt⟩
  · exact Arena.ends_mono (fetchAttempts_ends offset maximumBytes allow _ hle₁ hat₁)
      (fun _ _ _ h => h) fun _ _ _ h => ⟨h.1, fun _ _ _ _ => h⟩

/-- The range of offsets was that of the manifest at one moment of the call. -/
theorem offsets_ends (hat : C.At w.head w) :
    C.arena.Ends Y.log.offsets w (fun range w' => ∃ objects, w.bucket.During w'.bucket objects ∧
        range = ⟨(Y.log.manifestIn objects).startOffset, (Y.log.manifestIn objects).nextOffset⟩)
      (fun x _ => ¬ x.Malformed) := by
  unfold offsets
  refine ends_check_bind (fun _ _ => ?_) fun x hx => by cases g.topic.symm.trans hx
  refine Arena.ends_bind (Arena.ends_mono (requirePartition_ends hat) (fun _ _ _ h => h)
    fun _ _ _ h => h.1) ?_
  rintro _ w₁ hle₁ hat₁
  refine Arena.ends_bind (Arena.ends_mono (loadManifest_ends hat₁) (fun _ _ _ h => h) ?_) ?_
  · rintro x _ - ⟨rfl, -⟩
    simp [LogError.Malformed]
  rintro loaded w₂ hle₂ ⟨-, rfl⟩
  have hpast : Le Y.log w.scene w₂.scene := le_trans hle₁ hle₂
  rw [snapshotOf_getD]
  exact Arena.ends_pure ⟨w₂.bucket.objects, .now hpast.history, rfl⟩

end Walstream.Log

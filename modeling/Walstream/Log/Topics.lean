import Walstream.Interaction.Alone
import Walstream.Interaction.Once
import Walstream.Log.Conduct
import Walstream.Log.Reference
import Walstream.Log.Service

/-!
# Agreement on partition counts

A topic gets its number of partitions from whoever creates its metadata first. Brokers with
different defaults, and calls on all partitions of the topic, compete for this; requests may
fail, be misreported or arrive late.

- `TopicService`: clients that call the methods of the log on any partition of one topic.
- `Agreement`: the metadata is created at most once and stays, and what calls answer about the
  number of partitions is what it says. Only a call that began before the metadata was there
  may have taken the topic for one of the oldest format, with one partition.
-/

namespace Walstream.Log

open Interaction

/-! ## Calls -/

/-- A call that depends on the number of partitions of the topic. -/
inductive TopicOp where
  | ensure (defaultPartitions : PartitionCount)
  | count
  | find
  | log (op : Op)

/-- What a call returns. -/
inductive TopicOutcome where
  | ensured (result : Except LogError Int)
  | counted (result : Except LogError (Option Int))
  | found (result : Except LogError Bool)
  | logged (outcome : Outcome)

/-- The call as a program. -/
def TopicOp.program (log : PartitionLog) : TopicOp → Prog (Cmd Body) Resp TopicOutcome
  | .ensure defaultPartitions => do
    return .ensured (← (log.ensureTopic defaultPartitions).run)
  | .count => do
    return .counted (← log.topicPartitionCount.run)
  | .find => do
    return .found (← log.topicExists.run)
  | .log op => do
    return .logged (← op.program log)

/-- Brokers of one topic: what each client calls, on which partition, and what may go wrong with
its requests. -/
structure TopicService (Client : Type) where
  crates : Crates
  engine : LogEngine
  topic : String
  partition : Client → Int
  op : Client → TopicOp
  faults : Client → Faults
  /-- `Path::from` makes no name in a partition's directories the name of the metadata. -/
  pathFrom_filed : ∀ p path, 0 ≤ p → (⟨crates, engine, topic, p⟩ : PartitionLog).Filed path →
    crates.pathFrom path ≠ engine.topicMetadataPath topic

namespace TopicService

variable {Client : Type} (Y : TopicService Client)

/-- The log that the client calls. -/
def log (cl : Client) : PartitionLog := ⟨Y.crates, Y.engine, Y.topic, Y.partition cl⟩

/-- The name of the metadata. -/
def path : String := Y.engine.topicMetadataPath Y.topic

/-- The interleavings of the clients' requests. -/
def system : System Client (Cmd Body) Resp (Bucket Client Body) TopicOutcome where
  program cl := (Y.op cl).program (Y.log cl)
  exec cl := Bucket.Executes (Y.faults cl) Y.crates.size cl
  environment := Bucket.Delivered

/-- The number of partitions in the metadata. -/
def countIn (objects : String → Option Body) : Option Int :=
  match objects Y.path with
  | some (.metadata m) => some m.partitionCount
  | _ => none

/-- The body is metadata that `load_topic_metadata` accepts. -/
def Metadata (body : Body) : Prop :=
  ∃ n, body = .metadata ⟨topicMetadataSchema, n⟩ ∧ validatePartitionCount n = .ok ()

/-- The metadata of the topic, if there is any, is in order. -/
def InOrder (objects : String → Option Body) : Prop :=
  ∀ body, objects Y.path = some body → Metadata body

/-! ## Worlds -/

/-- The buckets in which the metadata was created at most once. -/
abbrev Topic : Type := Foundation Client Y.path Metadata

/-- One client among the others. -/
abbrev arena (cl : Client) : Arena (Cmd Body) Resp (Bucket Client Body) Y.Topic :=
  foundationArena Client Y.path Metadata (Y.faults cl) Y.crates.size cl

variable {Y} {w w' : Y.Topic} {cl : Client}

theorem content_of_countIn {n : Int} (h : Y.countIn w.bucket.objects = some n) :
    w.content = some (.metadata ⟨topicMetadataSchema, n⟩) ∧ validatePartitionCount n = .ok () := by
  cases hcontent : w.content with
  | none =>
    have hobject : w.bucket.objects Y.path = none := hcontent
    simp [countIn, hobject] at h
  | some body =>
    obtain ⟨n', rfl, hvalid⟩ := w.admitted body hcontent
    have hobject : w.bucket.objects Y.path = some (.metadata ⟨topicMetadataSchema, n'⟩) := hcontent
    obtain rfl : n' = n := by simpa [countIn, hobject] using h
    exact ⟨rfl, hvalid⟩

theorem countIn_of_content {body : Body} (h : w.content = some body) :
    ∃ n, body = .metadata ⟨topicMetadataSchema, n⟩ ∧ Y.countIn w.bucket.objects = some n := by
  obtain ⟨n, rfl, -⟩ := w.admitted body h
  have hobject : w.bucket.objects Y.path = some (.metadata ⟨topicMetadataSchema, n⟩) := h
  exact ⟨n, rfl, by simp [countIn, hobject]⟩

theorem countIn_eq_none (h : w.content = none) : Y.countIn w.bucket.objects = none := by
  have hobject : w.bucket.objects Y.path = none := h
  simp [countIn, hobject]

/-- The number of partitions stays. -/
theorem countIn_of_le (h : w ≤ w') {n : Int} (hn : Y.countIn w.bucket.objects = some n) :
    Y.countIn w'.bucket.objects = some n := by
  obtain ⟨n', hbody, hn'⟩ :=
    countIn_of_content (Foundation.content_of_le h (content_of_countIn hn).1)
  cases hbody
  exact hn'

theorem countIn_eq_none_of_le (h : w ≤ w') (hnone : w'.content = none) :
    Y.countIn w.bucket.objects = none :=
  countIn_eq_none (Foundation.content_eq_none_of_le h hnone)

/-! ## What calls find out -/

/-- The partition is one of `n`. -/
def Among (p n : Int) : Prop := 0 ≤ p ∧ p < n

/-- An error that is no lie when the call began in `s`: the topic is denied only when it had no
metadata, and of a topic with metadata no partition that it had. -/
def Fair (Y : TopicService Client) (cl : Client) (s : Bucket Client Body) (e : LogError) : Prop :=
  ∀ n, Y.countIn s.objects = some n → e.Denies →
    e = .unsupportedPartition (Y.partition cl) ∧ ¬ Among (Y.partition cl) n

theorem fair_of_not_denies {s : Bucket Client Body} {e : LogError} (h : ¬ e.Denies) :
    Y.Fair cl s e := fun _ _ hdenies => absurd hdenies h

theorem fair_of_none {e : LogError} (h : Y.countIn w.bucket.objects = none) :
    Y.Fair cl w.bucket e := fun n hn => by
  rw [h] at hn
  cases hn

/-- The partition is there: it is one of those that the metadata has, or it is partition 0 of a
topic that had no metadata when the call began. -/
def Serves (Y : TopicService Client) (cl : Client) (s now : Bucket Client Body) : Prop :=
  (∃ n, Y.countIn now.objects = some n ∧ Among (Y.partition cl) n) ∨
    Y.countIn s.objects = none ∧ Y.partition cl = 0

theorem Serves.later {s : Bucket Client Body} (h : Y.Serves cl s w.bucket) (hle : w ≤ w') :
    Y.Serves cl s w'.bucket :=
  h.imp_left fun ⟨n, hn, hp⟩ => ⟨n, countIn_of_le hle hn, hp⟩

/-- The number of partitions that a call was told. -/
def Told (Y : TopicService Client) (s now : Bucket Client Body) : Option Int → Prop
  | some n => Y.countIn now.objects = some n ∨
    Y.countIn s.objects = none ∧ n = Log.defaultTopicPartitions
  | none => Y.countIn s.objects = none

theorem Told.later {s : Bucket Client Body} {count : Option Int} (h : Y.Told s w.bucket count)
    (hle : w ≤ w') : Y.Told s w'.bucket count := by
  cases count with
  | some n => exact h.imp_left (countIn_of_le hle)
  | none => exact h

section Programs

variable {F : LogError → Y.Topic → Prop}

theorem ends_check_bind {α β : Type} {r : Except LogError β} {f : β → Engine α}
    {Q : α → Y.Topic → Prop} (hok : ∀ b, r = .ok b → (Y.arena cl).Ends (f b) w Q F)
    (herror : ∀ e, r = .error e → F e w) :
    (Y.arena cl).Ends (Engine.check r >>= f) w Q F := by
  cases r with
  | ok b => exact hok b rfl
  | error e => exact herror e rfl

/-- The metadata is read. -/
theorem loadTopicMetadata_ends : (Y.arena cl).Ends (Y.log cl).loadTopicMetadata w
    (fun loaded w' => match loaded with
      | some m => Y.countIn w'.bucket.objects = some m.partitionCount
      | none => Y.countIn w.bucket.objects = none)
    (fun e _ => ¬ e.Denies) := by
  have hparse := fun result =>
    (Y.log cl).parseTopicMetadata_failsWith LogError.denies_mundane result
  have hfound : ∀ {w' : Y.Topic} {body : Body} (answer : Except StoreError Body),
      w ≤ w' → w'.content = some body → (∀ body', answer = .ok body' → body' = body) →
      (Y.arena cl).Ends (do
          return some (← Engine.check ((Y.log cl).parseTopicMetadata
            ⟨Y.crates.size body, body, answer⟩))) w'
        (fun loaded w' => match loaded with
          | some m => Y.countIn w'.bucket.objects = some m.partitionCount
          | none => Y.countIn w.bucket.objects = none)
        (fun e _ => ¬ e.Denies) := by
    intro w' body answer hle hcontent hanswer
    refine ends_check_bind (fun m hm => ?_) fun e he => hparse _ e he
    obtain ⟨n, rfl, hn⟩ := countIn_of_content hcontent
    -- what was read completely is the object
    obtain ⟨hbody, -⟩ := parseTopicMetadata_accepts hm
    cases hanswer _ hbody
    exact hn
  refine Arena.ends_bind (P := fun r w' => w ≤ w' ∧
    Got (Y.faults cl) Y.crates.size w'.bucket Y.path r) ?_ ?_
  · refine foundation_perform trivial fun w₁ r w₂ hw₁ hw₂ hexec => ?_
    obtain ⟨hgot, hsame⟩ := hexec
    exact ⟨hw₁.trans hw₂, hsame ▸ hgot⟩
  · rintro r w' - ⟨hle, hgot⟩
    cases hgot with
    | found h => exact hfound _ hle h fun _ heq => (Except.ok.inj heq).symm
    | missing h => exact Arena.ends_pure (countIn_eq_none_of_le hle h)
    | interrupted hf h => exact hfound _ hle h fun _ heq => by cases heq
    | failed hf => exact Arena.ends_throw fun h => h

theorem loadManifestOf_ends (q : Int) : (Y.arena cl).Ends ((Y.log cl).loadManifestOf q) w
    (fun _ _ => True) (fun e _ => ¬ e.Denies) :=
  ((Y.log cl).loadManifestOf_obeys LogError.denies_mundane (fun _ => trivial) q).ends

/-- The metadata is created, or was there. -/
theorem createTopicMetadata_ends {n : Int} (hvalid : validatePartitionCount n = .ok ()) :
    (Y.arena cl).Ends ((Y.log cl).createTopicMetadata n) w
      (fun n' w' => Y.countIn w'.bucket.objects = some n')
      (fun e _ => e.Denies → Y.countIn w.bucket.objects = none) := by
  have hfounds : Cmd.Founds Y.path Metadata
      (.put Y.path (.metadata ⟨topicMetadataSchema, n⟩) .create) := fun _ => ⟨rfl, n, rfl, hvalid⟩
  unfold PartitionLog.createTopicMetadata
  -- an acknowledged write has created the metadata
  refine Arena.ends_bind (P := fun r w' => w ≤ w' ∧ ∀ body, r = .ok body →
    w'.content = some (.metadata ⟨topicMetadataSchema, n⟩)) ?_ ?_
  · refine foundation_perform hfounds fun w₁ r w₂ hw₁ hw₂ hexec => ?_
    refine ⟨hw₁.trans hw₂, fun body hbody => ?_⟩
    subst hbody
    have hput : Put (Y.faults cl) cl w₁.bucket Y.path _ .create (.ok body) w₂.bucket := hexec
    generalize hb : w₂.bucket = b at hput
    cases hput with
    | written =>
      rw [Foundation.content, hb]
      simp
  · rintro r w' - ⟨hle, hwritten⟩
    -- a refused one means that somebody else has, and it is loaded
    have hload : (Y.arena cl).Ends (do
        match ← (Y.log cl).loadTopicMetadata with
        | some metadata => return metadata.partitionCount
        | none => throw (.unknownTopic (Y.log cl).topic)) w'
        (fun n' w' => Y.countIn w'.bucket.objects = some n')
        (fun e _ => e.Denies → Y.countIn w.bucket.objects = none) := by
      refine Arena.ends_bind (Arena.ends_mono loadTopicMetadata_ends (fun _ _ _ h => h)
        fun e _ _ he hdenies => absurd hdenies he) ?_
      rintro (_ | m) w'' - hloaded
      · exact Arena.ends_throw fun _ => by
          cases hn : Y.countIn w.bucket.objects with
          | none => rfl
          | some n =>
            rw [countIn_of_le hle hn] at hloaded
            cases hloaded
      · exact Arena.ends_pure hloaded
    -- written, refused in one of two ways, or failed
    split
    · obtain ⟨n', hbody, hn'⟩ := countIn_of_content (hwritten _ rfl)
      cases hbody
      exact Arena.ends_pure hn'
    · exact hload
    · exact hload
    · exact Arena.ends_throw fun h => h.elim

theorem among_of_valid {p n : Int} (h : validatePartition p n = .ok ()) : Among p n := by
  unfold validatePartition at h
  split at h
  · assumption
  · cases h

/-- The answer to a partition that the topic does not have. -/
theorem fair_of_invalid {n : Int} {e : LogError} (hn : Y.countIn w'.bucket.objects = some n)
    (hle : w ≤ w') (he : validatePartition (Y.partition cl) n = .error e) :
    Y.Fair cl w.bucket e := by
  unfold validatePartition at he
  split at he
  · cases he
  · rename_i hnot
    cases he
    intro n' hn' _
    obtain rfl : n' = n := Option.some.inj ((countIn_of_le hle hn').symm.trans hn)
    exact ⟨rfl, hnot⟩

theorem validateTopic_fair {e : LogError} (he : validateTopic Y.topic = .error e) :
    Y.Fair cl w.bucket e := by
  unfold validateTopic at he
  split at he
  · cases he
  · cases he
    exact fair_of_not_denies fun h => h

/-- A topic that is there, or is created, has the partition. -/
theorem ensureTopic_ends (defaultPartitions : PartitionCount) :
    (Y.arena cl).Ends ((Y.log cl).ensureTopic defaultPartitions) w
      (fun n w' => Y.countIn w'.bucket.objects = some n ∧ Among (Y.partition cl) n)
      (fun e _ => Y.Fair cl w.bucket e) := by
  unfold PartitionLog.ensureTopic
  refine ends_check_bind (fun _ _ => ?_) fun e he => validateTopic_fair he
  refine Arena.ends_bind (Arena.ends_mono loadTopicMetadata_ends (fun _ _ _ h => h)
    fun e _ _ he => fair_of_not_denies he) ?_
  rintro loaded w₁ hle hloaded
  have hlast : ∀ {n : Int} {w₂ : Y.Topic}, w ≤ w₂ → Y.countIn w₂.bucket.objects = some n →
      (Y.arena cl).Ends (do
          Engine.check (validatePartition (Y.log cl).partition n)
          return n) w₂
        (fun n w' => Y.countIn w'.bucket.objects = some n ∧ Among (Y.partition cl) n)
        (fun e _ => Y.Fair cl w.bucket e) := by
    intro n w₂ hle₂ hn
    exact ends_check_bind (fun _ hvalid => Arena.ends_pure ⟨hn, among_of_valid hvalid⟩)
      fun e he => fair_of_invalid hn hle₂ he
  cases loaded with
  | some m => exact hlast hle hloaded
  | none =>
    refine Arena.ends_bind (Arena.ends_mono (loadManifestOf_ends 0) (fun _ _ _ h => h)
      fun e _ _ he => fair_of_not_denies he) ?_
    intro manifest w₂ hle₂ _
    -- nothing that a call finds out now contradicts metadata that it has not found
    refine ends_check_bind (fun _ _ => ?_) fun e _ => fair_of_none hloaded
    refine Arena.ends_bind (Arena.ends_mono (createTopicMetadata_ends ?_) (fun _ _ _ h => h)
      fun e _ _ _ => fair_of_none hloaded) fun n w₃ hle₃ hn => hlast ((hle.trans hle₂).trans hle₃) hn
    cases manifest with
    | none => exact defaultPartitions.valid
    | some _ => rfl

/-- The number of partitions is looked up. -/
theorem topicPartitionCount_ends : (Y.arena cl).Ends (Y.log cl).topicPartitionCount w
    (fun count w' => Y.Told w.bucket w'.bucket count) (fun e _ => ¬ e.Denies) := by
  unfold PartitionLog.topicPartitionCount
  refine ends_check_bind (fun _ _ => ?_) fun e he => ?_
  · refine Arena.ends_bind loadTopicMetadata_ends ?_
    rintro (_ | m) w₁ hle hloaded
    · refine Arena.ends_bind (loadManifestOf_ends 0) ?_
      rintro (_ | manifest) w₂ - -
      · exact Arena.ends_pure hloaded
      · exact Arena.ends_pure (.inr ⟨hloaded, rfl⟩)
    · exact Arena.ends_pure (.inl hloaded)
  · unfold validateTopic at he
    split at he
    · cases he
    · cases he
      exact fun h => h

/-- A partition that passes the check is there. -/
theorem serves_of_told {s : Bucket Client Body} {n : Int} (htold : Y.Told s w.bucket (some n))
    (hvalid : validatePartition (Y.partition cl) n = .ok ()) : Y.Serves cl s w.bucket := by
  have hamong := among_of_valid hvalid
  rcases htold with hn | ⟨hnone, rfl⟩
  · exact .inl ⟨n, hn, hamong⟩
  · obtain ⟨hlow, hhigh⟩ := hamong
    refine .inr ⟨hnone, ?_⟩
    simp only [Log.defaultTopicPartitions] at hhigh
    omega

/-- A partition that does not pass the check was not there. -/
theorem fair_of_told {n : Int} {e : LogError} (hle : w ≤ w')
    (htold : Y.Told w.bucket w'.bucket (some n))
    (he : validatePartition (Y.partition cl) n = .error e) : Y.Fair cl w.bucket e := by
  rcases htold with hn | ⟨hnone, -⟩
  · exact fair_of_invalid hn hle he
  · exact fair_of_none hnone

theorem topicExists_ends : (Y.arena cl).Ends (Y.log cl).topicExists w
    (fun found w' => if found then Y.Serves cl w.bucket w'.bucket
      else Y.countIn w.bucket.objects = none)
    (fun e _ => Y.Fair cl w.bucket e) := by
  unfold PartitionLog.topicExists
  refine ends_check_bind (fun _ _ => ?_) fun e he => validateTopic_fair he
  refine Arena.ends_bind (Arena.ends_mono topicPartitionCount_ends (fun _ _ _ h => h)
    fun e _ _ he => fair_of_not_denies he) ?_
  rintro (_ | n) w₁ hle htold
  · exact Arena.ends_pure htold
  · exact ends_check_bind (fun _ hvalid => Arena.ends_pure (serves_of_told htold hvalid))
      fun e he => fair_of_told hle htold he

theorem requirePartition_ends : (Y.arena cl).Ends (Y.log cl).requirePartition w
    (fun _ w' => Y.Serves cl w.bucket w'.bucket) (fun e _ => Y.Fair cl w.bucket e) := by
  unfold PartitionLog.requirePartition
  refine Arena.ends_bind (Arena.ends_mono topicPartitionCount_ends (fun _ _ _ h => h)
    fun e _ _ he => fair_of_not_denies he) ?_
  rintro (_ | n) w₁ hle htold
  · exact Arena.ends_throw (fair_of_none htold)
  · cases hvalid : validatePartition (Y.partition cl) n with
    | ok _ =>
      have hcheck : Engine.check (validatePartition (Y.log cl).partition n) = pure () := by
        rw [show (Y.log cl).partition = Y.partition cl from rfl, hvalid]
        rfl
      dsimp only
      rw [hcheck]
      exact Arena.ends_pure (serves_of_told htold hvalid)
    | error e =>
      have hcheck : Engine.check (validatePartition (Y.log cl).partition n) = throw e := by
        rw [show (Y.log cl).partition = Y.partition cl from rfl, hvalid]
        rfl
      dsimp only
      rw [hcheck]
      exact Arena.ends_throw (fair_of_told hle htold hvalid)

/-! ## Whole calls -/

/-- What a call does on a partition that is there does not touch the metadata. -/
theorem admits (hp : 0 ≤ Y.partition cl) : (Y.log cl).Admits (Cmd.Founds Y.path Metadata) where
  get := fun _ => trivial
  newV4 := trivial
  create := fun path _ hnamed heq => by
    subst heq
    exact absurd hnamed.filed ((Y.log cl).topicMetadataPath_not_filed hp)
  head := fun _ => trivial
  list := fun _ => trivial
  publish := fun _ _ heq => absurd heq ((Y.log cl).manifestPath_ne_topicMetadataPath hp)
  delete := fun path hfiled => Y.pathFrom_filed _ path hp hfiled

/-- The end of a call that is past the check of the partition. -/
theorem Obeys.serves {α : Type} {x : Engine α} {s : Bucket Client Body}
    (h : Obeys (Cmd.Founds Y.path Metadata) (fun e => ¬ e.Denies) x)
    (hserves : Y.Serves cl s w.bucket) :
    (Y.arena cl).Ends x w (fun _ w' => Y.Serves cl s w'.bucket) (fun e _ => Y.Fair cl s e) :=
  Arena.ends_mono h.ends (fun _ _ hle _ => hserves.later hle) fun _ _ _ he => fair_of_not_denies he

theorem nonneg_of_serves {s now : Bucket Client Body} (h : Y.Serves cl s now) :
    0 ≤ Y.partition cl := by
  rcases h with ⟨n, -, hlow, -⟩ | ⟨-, hzero⟩
  · exact hlow
  · exact hzero.ge

/-- A partition that no topic can have. -/
theorem fair_of_excessive {e : LogError}
    (he : validatePartition (Y.partition cl) maxTopicPartitions = .error e) :
    Y.Fair cl w.bucket e := by
  unfold validatePartition at he
  split at he
  · cases he
  · rename_i hnot
    cases he
    refine fun n hn _ => ⟨rfl, fun hamong => hnot ⟨hamong.1, ?_⟩⟩
    have hvalid := (content_of_countIn hn).2
    unfold validatePartitionCount at hvalid
    split at hvalid
    · rename_i hcount
      exact hamong.2.trans_le hcount.2
    · cases hvalid

theorem admitBatches_fair (batches : List (List Record)) :
    FailsWith (Y.Fair cl w.bucket) ((Y.log cl).admitBatches batches) := by
  have hplain : ∀ {α : Type} {r : Except LogError α}, FailsWith (fun e => ¬ e.Denies) r →
      FailsWith (Y.Fair cl w.bucket) r := fun h => h.mono fun _ he => fair_of_not_denies he
  unfold PartitionLog.admitBatches
  refine failsWith_bind (fun e he => validateTopic_fair he) fun _ _ => ?_
  refine failsWith_bind (fun e he => fair_of_excessive he) fun _ _ => ?_
  refine failsWith_bind (hplain (failsWith_rejectIf fun _ h => h)) fun _ _ => ?_
  refine failsWith_bind (hplain (failsWith_rejectIf fun _ h => h)) fun _ _ => ?_
  refine failsWith_bind (hplain (failsWith_mapM_of PartitionLog.inspectBatch_fails batches)) fun _ _ => ?_
  exact failsWith_bind (hplain (failsWith_rejectIf fun _ h => h)) fun _ _ => failsWith_ok

/-- A batch is appended only to a partition of a topic with metadata. -/
theorem appendBatches_ends (defaultPartitions : PartitionCount) (clock : Option Nat)
    (batches : List (List Record)) :
    (Y.arena cl).Ends ((Y.log cl).appendBatches defaultPartitions clock batches) w
      (fun _ w' => ∃ n, Y.countIn w'.bucket.objects = some n ∧ Among (Y.partition cl) n)
      (fun e _ => Y.Fair cl w.bucket e) := by
  unfold PartitionLog.appendBatches
  refine ends_check_bind (fun fingerprints hadmitted => ?_) (admitBatches_fair batches)
  refine ends_check_bind (fun received _ => ?_) fun e he => ?_
  · refine Arena.ends_bind (ensureTopic_ends defaultPartitions) fun n w₁ _ hn => ?_
    obtain ⟨-, -, -, -, hbatches⟩ := PartitionLog.admitBatches_eq_ok hadmitted
    have hobeys := PartitionLog.appendAttempts_obeys (admits hn.2.1) hbatches received maxCasAttempts
    exact Arena.ends_mono hobeys.ends (fun _ _ hle _ => ⟨n, countIn_of_le hle hn.1, hn.2⟩)
      fun e _ _ he => fair_of_not_denies he
  · rw [unixMillis, okOr_eq_error] at he
    exact he.2 ▸ fair_of_not_denies fun h => h

theorem fetchBounded_ends (offset : Int) (maximumBytes : Nat) (allowOversizedFirstBatch : Bool) :
    (Y.arena cl).Ends ((Y.log cl).fetchBounded offset maximumBytes allowOversizedFirstBatch) w
      (fun _ w' => Y.Serves cl w.bucket w'.bucket) (fun e _ => Y.Fair cl w.bucket e) := by
  unfold PartitionLog.fetchBounded
  refine ends_check_bind (fun _ _ => ?_) fun e he => validateTopic_fair he
  refine Arena.ends_bind requirePartition_ends fun _ w₁ _ hserves => ?_
  split
  · exact Arena.ends_throw (fair_of_not_denies fun h => h)
  · exact Obeys.serves (PartitionLog.fetchAttempts_obeys (fun _ => trivial) _ _ _ _) hserves

theorem offsets_ends : (Y.arena cl).Ends (Y.log cl).offsets w
    (fun _ w' => Y.Serves cl w.bucket w'.bucket) (fun e _ => Y.Fair cl w.bucket e) := by
  unfold PartitionLog.offsets
  refine ends_check_bind (fun _ _ => ?_) fun e he => validateTopic_fair he
  refine Arena.ends_bind requirePartition_ends fun _ w₁ _ hserves => ?_
  exact Obeys.serves (obeys_bind
    ((Y.log cl).loadManifestOf_obeys LogError.denies_mundane (fun _ => trivial) _)
    fun _ => obeys_pure) hserves

theorem maintain_ends (options : MaintenanceOptions) (clock : Option Nat) :
    (Y.arena cl).Ends ((Y.log cl).maintain options clock) w
      (fun _ w' => Y.Serves cl w.bucket w'.bucket) (fun e _ => Y.Fair cl w.bucket e) := by
  unfold PartitionLog.maintain
  refine ends_check_bind (fun _ _ => ?_) fun e he => ?_
  · refine ends_check_bind (fun _ _ => ?_) fun e he => validateTopic_fair he
    refine ends_check_bind (fun _ _ => ?_) fun e he => fair_of_excessive he
    refine Arena.ends_bind requirePartition_ends fun _ w₁ _ hserves => ?_
    refine ends_check_bind (fun now _ => ?_) fun e he => ?_
    · exact Obeys.serves (PartitionLog.maintainAt_obeys (admits (nonneg_of_serves hserves)) _ _)
        hserves
    · rw [unixMillis, okOr_eq_error] at he
      exact he.2 ▸ fair_of_not_denies fun h => h
  · rw [MaintenanceOptions.validate, rejectIf_eq_error] at he
    exact he.2 ▸ fair_of_not_denies fun h => h

end Programs

/-! ## Agreement -/

/-- The result of a call is right: a value satisfies `Q`, and an error is fair. -/
def Right {α : Type} (Y : TopicService Client) (cl : Client) (s : Bucket Client Body)
    (Q : α → Prop) : Except LogError α → Prop
  | .ok a => Q a
  | .error e => Y.Fair cl s e

/-- What a call that began when the bucket was `s` may answer, when it is `now`. -/
def Answers (Y : TopicService Client) (cl : Client) (s now : Bucket Client Body) :
    TopicOutcome → Prop
  | .ensured r => Y.Right cl s
      (fun n => Y.countIn now.objects = some n ∧ Among (Y.partition cl) n) r
  | .counted r => match r with
    | .ok count => Y.Told s now count
    | .error e => ¬ e.Denies
  | .found r => Y.Right cl s
      (fun found => if found then Y.Serves cl s now else Y.countIn s.objects = none) r
  | .logged (.appended r) => Y.Right cl s
      (fun _ => ∃ n, Y.countIn now.objects = some n ∧ Among (Y.partition cl) n) r
  | .logged (.fetched r) => Y.Right cl s (fun _ => Y.Serves cl s now) r
  | .logged (.ranged r) => Y.Right cl s (fun _ => Y.Serves cl s now) r
  | .logged (.maintained r) => Y.Right cl s (fun _ => Y.Serves cl s now) r

theorem Right.mono {α : Type} {s : Bucket Client Body} {Q Q' : α → Prop} {r : Except LogError α}
    (h : Y.Right cl s Q r) (hQ : ∀ a, Q a → Q' a) : Y.Right cl s Q' r := by
  cases r with
  | ok a => exact hQ a h
  | error e => exact h

theorem Answers.later {s : Bucket Client Body} {out : TopicOutcome}
    (h : Y.Answers cl s w.bucket out) (hle : w ≤ w') : Y.Answers cl s w'.bucket out := by
  have hserves := fun (h : Y.Serves cl s w.bucket) => h.later hle
  cases out with
  | ensured r => exact Right.mono h fun n hn => ⟨countIn_of_le hle hn.1, hn.2⟩
  | counted r =>
    cases r with
    | ok count => exact Told.later h hle
    | error e => exact h
  | found r =>
    refine Right.mono h fun found hfound => ?_
    cases found with
    | true => exact hserves hfound
    | false => exact hfound
  | logged outcome =>
    cases outcome with
    | appended r => exact Right.mono h fun _ ⟨n, hn, hp⟩ => ⟨n, countIn_of_le hle hn, hp⟩
    | fetched r => exact Right.mono h fun _ => hserves
    | ranged r => exact Right.mono h fun _ => hserves
    | maintained r => exact Right.mono h fun _ => hserves

/-- The outcome of a fallible program, handed over as a value. -/
theorem wp_outcome {α β : Type} {x : Engine α} {Q : α → Y.Topic → Prop}
    {F : LogError → Y.Topic → Prop} {f : Except LogError α → β} {A : β → Y.Topic → Prop}
    (h : (Y.arena cl).Ends x w Q F) (hok : ∀ a w', Q a w' → A (f (.ok a)) w')
    (herror : ∀ e w', F e w' → A (f (.error e)) w') :
    (Y.arena cl).wp (do return f (← x.run)) A w := by
  refine Arena.wp_bind (p := x.run) (Arena.wp_mono h fun r w' _ hr => ?_)
  cases r with
  | ok a => exact hok a w' hr
  | error e => exact herror e w' hr

/-- Every call keeps to the agreement. -/
theorem program_answers (w : Y.Topic) : (Y.arena cl).wp ((Y.op cl).program (Y.log cl))
    (fun out w' => Y.Answers cl w.bucket w'.bucket out) w := by
  cases Y.op cl with
  | ensure defaultPartitions =>
    exact wp_outcome (ensureTopic_ends defaultPartitions) (fun _ _ h => h) fun _ _ h => h
  | count => exact wp_outcome topicPartitionCount_ends (fun _ _ h => h) fun _ _ h => h
  | find => exact wp_outcome topicExists_ends (fun _ _ h => h) fun _ _ h => h
  | log op =>
    have hop : (Y.arena cl).wp (op.program (Y.log cl))
        (fun out w' => Y.Answers cl w.bucket w'.bucket (.logged out)) w := by
      cases op with
      | append defaultPartitions clock batches =>
        exact wp_outcome (appendBatches_ends defaultPartitions clock batches) (fun _ _ h => h)
          fun _ _ h => h
      | fetch offset maximumBytes allow =>
        exact wp_outcome (fetchBounded_ends offset maximumBytes allow) (fun _ _ h => h)
          fun _ _ h => h
      | offsets => exact wp_outcome offsets_ends (fun _ _ h => h) fun _ _ h => h
      | maintain options clock =>
        exact wp_outcome (maintain_ends options clock) (fun _ _ h => h) fun _ _ h => h
    exact Arena.wp_bind (Arena.wp_mono hop fun _ _ _ h => h)

/-- The exact answer about partition `p` of a topic with `n` partitions: a value satisfies `Q`
and comes from one of them, and an error does not deny one of them. -/
def Conforms {α : Type} (p n : Int) (Q : α → Prop) : Except LogError α → Prop
  | .ok a => Among p n ∧ Q a
  | .error e => e.Denies → e = .unsupportedPartition p ∧ ¬ Among p n

/-- The answer of a call to a topic with `n` partitions. -/
def Exact (p n : Int) : TopicOutcome → Prop
  | .ensured r => Conforms p n (· = n) r
  | .counted r => match r with
    | .ok count => count = some n
    | .error e => ¬ e.Denies
  | .found r => Conforms p n (· = true) r
  | .logged (.appended r) => Conforms p n (fun _ => True) r
  | .logged (.fetched r) => Conforms p n (fun _ => True) r
  | .logged (.ranged r) => Conforms p n (fun _ => True) r
  | .logged (.maintained r) => Conforms p n (fun _ => True) r

/-- When the metadata is there as the call begins, its answer is exact. -/
theorem Answers.exact {s : Bucket Client Body} {out : TopicOutcome} {n : Int}
    (h : Y.Answers cl s w.bucket out) (hs : Y.countIn s.objects = some n)
    (hnow : Y.countIn w.bucket.objects = some n) : Exact (Y.partition cl) n out := by
  have hsame : ∀ {n'}, Y.countIn w.bucket.objects = some n' → n' = n :=
    fun hn' => Option.some.inj (hn'.symm.trans hnow)
  -- the number that was found is the one that the topic has for good
  have hserves : Y.Serves cl s w.bucket → Among (Y.partition cl) n := by
    rintro (⟨n', hn', hamong⟩ | ⟨hnone, -⟩)
    · exact hsame hn' ▸ hamong
    · exact absurd hs (by simp [hnone])
  -- an error of the call is right about that number
  have hfits : ∀ {α : Type} {Q Q' : α → Prop} {r : Except LogError α}, Y.Right cl s Q r →
      (∀ a, Q a → Among (Y.partition cl) n ∧ Q' a) → Conforms (Y.partition cl) n Q' r := by
    intro α Q Q' r hr hQ
    cases r with
    | ok a => exact hQ a hr
    | error e => exact hr n hs
  -- one case for each kind of answer
  cases out with
  | ensured r =>
    exact hfits h fun n' hn' => ⟨hsame hn'.1 ▸ hn'.2, hsame hn'.1⟩
  | counted r =>
    cases r with
    | error e => exact h
    | ok count =>
      cases count with
      | none => exact absurd (show Y.countIn s.objects = none from h) (by simp [hs])
      | some n' =>
        rcases h with hn' | ⟨hnone, -⟩
        · exact congrArg some (hsame hn')
        · exact absurd hs (by simp [hnone])
  | found r =>
    refine hfits h fun found hfound => ?_
    cases found with
    | true => exact ⟨hserves hfound, rfl⟩
    | false => exact absurd (show Y.countIn s.objects = none from hfound) (by simp [hs])
  | logged outcome =>
    cases outcome with
    | appended r => exact hfits h fun _ ⟨n', hn', hamong⟩ => ⟨hsame hn' ▸ hamong, trivial⟩
    | fetched r => exact hfits h fun _ hr => ⟨hserves hr, trivial⟩
    | ranged r => exact hfits h fun _ hr => ⟨hserves hr, trivial⟩
    | maintained r => exact hfits h fun _ hr => ⟨hserves hr, trivial⟩

variable [DecidableEq Client]

/-- What is agreed about the topic, between one configuration and a later one. -/
structure Agreement (Y : TopicService Client)
    (cfg cfg' : Config Client (Cmd Body) Resp (Bucket Client Body) TopicOutcome) : Prop where
  /-- The metadata changes at most once: when it is created. -/
  once : cfg'.shared.changesOf Y.path ≤ 1
  /-- The number of partitions is in the admitted range. -/
  valid : ∀ n, Y.countIn cfg'.shared.objects = some n → validatePartitionCount n = .ok ()
  /-- It does not change. -/
  kept : ∀ n, Y.countIn cfg.shared.objects = some n → Y.countIn cfg'.shared.objects = some n
  /-- What has been answered about it holds. -/
  answered : ∀ cl s out, cfg'.tasks cl = some ⟨s, .ret out⟩ → Y.Answers cl s cfg'.shared out
  /-- What is answered to calls that began when it was known is exact. -/
  exact : ∀ n, Y.countIn cfg.shared.objects = some n → ∀ cl, cfg.tasks cl = none →
    ∀ s out, cfg'.tasks cl = some ⟨s, .ret out⟩ → Exact (Y.partition cl) n out

/-- What comes after a configuration in which all calls keep to the agreement. -/
theorem steps_answers
    {cfg cfg' : Config Client (Cmd Body) Resp (Bucket Client Body) TopicOutcome} {w : Y.Topic}
    (h : Y.system.Verified Foundation.bucket (fun cl => Y.arena cl) (fun _ _ => True)
      (fun cl s out (w : Y.Topic) => Y.Answers cl s w.bucket out) cfg w)
    (hsteps : Relation.ReflTransGen Y.system.Step cfg cfg') :
    ∃ w', w ≤ w' ∧ Y.system.Verified Foundation.bucket (fun cl => Y.arena cl) (fun _ _ => True)
      (fun cl s out (w : Y.Topic) => Y.Answers cl s w.bucket out) cfg' w' :=
  System.steps_world foundation_compatible (fun _ w _ => program_answers w) (fun _ _ _ _ h => h)
    (fun _ _ _ _ _ hrely h => h.later hrely) h hsteps

/-- **Partition counts are agreed**: for every topic whose metadata, if it is there, is in order,
whatever calls are made on its partitions, in whatever order their requests take effect, and
whatever becomes of their answers. -/
theorem partition_counts_agree {objects : String → Option Body} {issued : Set Uuid}
    (horder : Y.InOrder objects)
    {cfg cfg' : Config Client (Cmd Body) Resp (Bucket Client Body) TopicOutcome}
    (hreach : Y.system.Reachable (Bucket.initial objects issued) cfg)
    (hlater : Relation.ReflTransGen Y.system.Step cfg cfg') : Y.Agreement cfg cfg' := by
  let w₀ : Y.Topic := Foundation.initial objects issued horder
  have hstart : System.Verified Y.system Foundation.bucket (fun cl => Y.arena cl) (fun _ _ => True)
      (fun cl s out w' => Y.Answers cl s w'.bucket out) (System.initial w₀.bucket) w₀ :=
    System.verified_initial fun _ => trivial
  obtain ⟨w, -, hver⟩ := steps_answers hstart hreach
  obtain ⟨w', hle, hver'⟩ := steps_answers hver hlater
  have hanswered : ∀ cl s out, cfg'.tasks cl = some ⟨s, .ret out⟩ →
      Y.Answers cl s w'.bucket out := fun cl s out ht => hver'.tasks cl _ ht
  refine ⟨?_, ?_, ?_, ?_, ?_⟩
  · rw [← hver'.shared]
    rcases w'.once with h | h <;> omega
  · rw [← hver'.shared]
    exact fun n hn => (content_of_countIn hn).2
  · rw [← hver.shared, ← hver'.shared]
    exact fun n hn => countIn_of_le hle hn
  · rw [← hver'.shared]
    exact hanswered
  · intro n hn cl hnone s out ht
    rw [← hver.shared] at hn
    -- the call began in a world that comes later than the one with the metadata
    obtain ⟨cfg₁, hsteps₁, hstarted⟩ := System.started_after hlater hnone ht
    obtain ⟨w₁, hle₁, hver₁⟩ := steps_answers hver hsteps₁
    have hs : Y.countIn s.objects = some n := by
      have heq : s = w₁.bucket := hstarted.trans hver₁.shared.symm
      rw [heq]
      exact countIn_of_le hle₁ hn
    exact (hanswered cl s out ht).exact hs (countIn_of_le hle hn)

end TopicService

namespace Reference

/-- Two clients of partition 2 of a new topic: one makes sure that it exists, with three
partitions when it has to create it, and the other asks for their number. -/
def topicService : TopicService Bool where
  crates := crates
  engine := engine
  topic := "t"
  partition := fun _ => 2
  op cl := if cl then .count else .ensure ⟨3, rfl⟩
  faults := fun _ => .none
  pathFrom_filed := fun p path hp hfiled heq => by
    have hpath : path = engine.topicMetadataPath "t" := heq
    subst hpath
    exact PartitionLog.topicMetadataPath_not_filed ⟨crates, engine, "t", p⟩ hp hfiled

/-- What a client of these does alone. -/
abbrev soloTopic (cl : Bool) (b : Bucket Bool Body) :=
  (topicService.system.program cl).solo (Bucket.reply crates.size cl) b

theorem soloTopic_runs {cl : Bool} {b b' : Bucket Bool Body} {cs : List (Cmd Body)}
    {out : TopicOutcome} (h : soloTopic cl b = some (cs, out, b')) :
    Runs (topicService.system.exec cl) b (topicService.system.program cl) cs out b' := by
  have hreply : ∀ (c : Cmd Body) b r b', Bucket.reply crates.size cl c b = some (r, b') →
      topicService.system.exec cl c b r b' := fun _ _ _ _ => Bucket.executes_of_reply
  exact Prog.solo_runs hreply h

/-- The number that a call has answered. -/
def answeredCount : TopicOutcome → Option Int
  | .ensured (.ok n) => some n
  | .counted (.ok count) => count
  | _ => none

/-- The topic is created, and then its partitions are counted. -/
theorem partition_counts_agree_first :
    ∃ cfg cfg' : Config Bool (Cmd Body) Resp (Bucket Bool Body) TopicOutcome,
      (∃ s out, cfg.tasks false = some ⟨s, .ret out⟩ ∧ answeredCount out = some 3) ∧
      (∃ s out, cfg'.tasks true = some ⟨s, .ret out⟩ ∧ answeredCount out = some 3) ∧
      topicService.Agreement cfg cfg' := by
  let b₀ : Bucket Bool Body := .initial (fun _ => none) ∅
  have hsolo : (soloTopic false b₀).any (fun first => decide (answeredCount first.2.1 = some 3) &&
      (soloTopic true first.2.2).any fun second => decide (answeredCount second.2.1 = some 3))
        = true := by
    decide +kernel
  obtain ⟨⟨cs, out, b₁⟩, hensure, hcheck⟩ := (Option.any_eq_true _ _).mp hsolo
  obtain ⟨hout, hsecond⟩ := (Bool.and_eq_true _ _).mp hcheck
  obtain ⟨⟨cs', out', b₂⟩, hcount, hout'⟩ := (Option.any_eq_true _ _).mp hsecond
  let cfg : Config Bool (Cmd Body) Resp (Bucket Bool Body) TopicOutcome :=
    ⟨b₁, Function.update (fun _ => none) false (some ⟨b₀, .ret out⟩)⟩
  have hreach : topicService.system.Reachable b₀ cfg :=
    System.steps_of_runs rfl (soloTopic_runs hensure)
  have hnone : cfg.tasks true = none := rfl
  have hlater := System.steps_of_runs (Y := topicService.system) hnone (soloTopic_runs hcount)
  have horder : topicService.InOrder (fun _ => none) := fun _ h => by cases h
  exact ⟨cfg, _, ⟨b₀, out, rfl, of_decide_eq_true hout⟩,
    ⟨b₁, out', rfl, of_decide_eq_true hout'⟩,
    TopicService.partition_counts_agree horder hreach hlater⟩

end Reference

end Walstream.Log

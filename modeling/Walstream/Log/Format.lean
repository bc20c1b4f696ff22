import Walstream.Interaction.Bucket
import Mathlib.Algebra.Order.BigOperators.Group.List
import Mathlib.Algebra.Order.Group.Nat
import Mathlib.Data.List.Infix
import Mathlib.Tactic.Linarith

/-!
# The durable format of a partition log

The data that the log keeps in the object store, its bounds, the names of its objects
and the checks that the reader and the writer run on it.

Machine integers: `i32` and `i64` are `Int`, `u8`, `u32`, `u64` and `usize` are `Nat`, and
the checked operations of the source are the `checked...` functions below. `usize` has 64
bits, so `usize::try_from` of a `u64` is the identity.

Object bodies: a record batch is its bytes, a JSON document is the value it holds.
`serde_json` is taken to read back what it writes; what else the log uses of other
crates is collected in `Crates`.
-/

namespace Walstream

open Interaction

/-! ## Machine arithmetic -/

def i64Max : Int := 2 ^ 63 - 1
def i64Min : Int := -2 ^ 63
def u64Max : Nat := 2 ^ 64 - 1

/-- `i64::checked_add`. -/
def checkedAddI64 (a b : Int) : Option Int :=
  if i64Min ≤ a + b ∧ a + b ≤ i64Max then some (a + b) else none

/-- `u64::checked_add`, also for `usize`. -/
def checkedAddU64 (a b : Nat) : Option Nat :=
  if a + b ≤ u64Max then some (a + b) else none

/-- `u64::checked_pow`. -/
def checkedPowU64 (base exponent : Nat) : Option Nat :=
  if base ^ exponent ≤ u64Max then some (base ^ exponent) else none

/-- `if bad { return Err(e) }`. -/
def rejectIf {ε : Type} (bad : Prop) [Decidable bad] (e : ε) : Except ε Unit :=
  if bad then .error e else .ok ()

/-- `o.ok_or(e)`. -/
def okOr {ε α : Type} (o : Option α) (e : ε) : Except ε α :=
  match o with
  | some a => .ok a
  | none => .error e

section Results

variable {ε α β : Type}

@[simp] theorem rejectIf_eq_ok {bad : Prop} [Decidable bad] {e : ε} {u : Unit} :
    rejectIf bad e = .ok u ↔ ¬ bad := by
  unfold rejectIf; split <;> simp_all

@[simp] theorem rejectIf_eq_error {bad : Prop} [Decidable bad] {e e' : ε} :
    rejectIf bad e = .error e' ↔ bad ∧ e = e' := by
  unfold rejectIf; split <;> simp_all

@[simp] theorem okOr_eq_ok {o : Option α} {e : ε} {a : α} : okOr o e = .ok a ↔ o = some a := by
  unfold okOr; split <;> simp_all

@[simp] theorem okOr_eq_error {o : Option α} {e e' : ε} :
    okOr o e = .error e' ↔ o = none ∧ e = e' := by
  unfold okOr; split <;> simp_all

/-- A chain of checks succeeds when each of them does. -/
theorem bind_eq_ok {x : Except ε α} {f : α → Except ε β} {b : β} :
    (x >>= f) = .ok b ↔ ∃ a, x = .ok a ∧ f a = .ok b := by
  cases x <;> simp [bind, Except.bind]

/-- The first check that fails is the failure of the chain. -/
theorem bind_eq_error {x : Except ε α} {f : α → Except ε β} {e : ε} :
    (x >>= f) = .error e ↔ x = .error e ∨ ∃ a, x = .ok a ∧ f a = .error e := by
  cases x <;> simp [bind, Except.bind]

@[simp] theorem mapError_ok {ε' : Type} (f : ε → ε') (a : α) :
    (Except.ok a : Except ε α).mapError f = .ok a := rfl

@[simp] theorem mapError_error {ε' : Type} (f : ε → ε') (e : ε) :
    (Except.error e : Except ε α).mapError f = .error (f e) := rfl

@[simp] theorem mapError_eq_ok {ε' : Type} {x : Except ε α} {f : ε → ε'} {a : α} :
    x.mapError f = .ok a ↔ x = .ok a := by
  cases x <;> simp

/-- Every error of `x` satisfies `P`. -/
def FailsWith (P : ε → Prop) (x : Except ε α) : Prop := ∀ e, x = .error e → P e

section FailsWith

variable {P : ε → Prop}

theorem failsWith_ok {a : α} : FailsWith P (.ok a : Except ε α) := fun _ h => nomatch h

theorem failsWith_error {e : ε} (h : P e) : FailsWith P (.error e : Except ε α) :=
  fun _ he => Except.error.inj he ▸ h

theorem failsWith_rejectIf {bad : Prop} [Decidable bad] {e : ε} (h : bad → P e) :
    FailsWith P (rejectIf bad e) := fun _ he => by
  obtain ⟨hbad, rfl⟩ := rejectIf_eq_error.mp he
  exact h hbad

theorem failsWith_okOr {o : Option α} {e : ε} (h : P e) : FailsWith P (okOr o e) :=
  fun _ he => (okOr_eq_error.mp he).2 ▸ h

theorem failsWith_bind {x : Except ε α} {f : α → Except ε β} (hx : FailsWith P x)
    (hf : ∀ a, x = .ok a → FailsWith P (f a)) : FailsWith P (x >>= f) := fun e he => by
  rcases bind_eq_error.mp he with he | ⟨a, ha, he⟩
  · exact hx e he
  · exact hf a ha e he

theorem failsWith_mapError {ε' : Type} {x : Except ε' α} {f : ε' → ε}
    (h : ∀ e, x = .error e → P (f e)) : FailsWith P (x.mapError f) := by
  cases x with
  | ok a => exact failsWith_ok
  | error e => exact failsWith_error (h e rfl)

theorem FailsWith.mono {Q : ε → Prop} {x : Except ε α} (h : FailsWith P x) (hPQ : ∀ e, P e → Q e) :
    FailsWith Q x := fun e he => hPQ e (h e he)

@[simp] theorem failsWith_pure_iff {a : α} : FailsWith P (pure a : Except ε α) ↔ True :=
  iff_true_intro failsWith_ok

@[simp] theorem failsWith_ok_iff {a : α} : FailsWith P (.ok a : Except ε α) ↔ True :=
  iff_true_intro failsWith_ok

@[simp] theorem failsWith_error_iff {e : ε} : FailsWith P (.error e : Except ε α) ↔ P e :=
  ⟨fun h => h e rfl, failsWith_error⟩

@[simp] theorem failsWith_rejectIf_iff {bad : Prop} [Decidable bad] {e : ε} :
    FailsWith P (rejectIf bad e) ↔ (bad → P e) :=
  ⟨fun h hbad => h e (rejectIf_eq_error.mpr ⟨hbad, rfl⟩), failsWith_rejectIf⟩

@[simp] theorem failsWith_okOr_iff {o : Option α} {e : ε} :
    FailsWith P (okOr o e) ↔ (o = none → P e) :=
  ⟨fun h ho => h e (okOr_eq_error.mpr ⟨ho, rfl⟩), fun h _ he => by
    obtain ⟨ho, rfl⟩ := okOr_eq_error.mp he
    exact h ho⟩

@[simp] theorem failsWith_bind_iff {x : Except ε α} {f : α → Except ε β} :
    FailsWith P (x >>= f) ↔ FailsWith P x ∧ ∀ a, x = .ok a → FailsWith P (f a) := by
  constructor
  · intro h
    exact ⟨fun e he => h e (bind_eq_error.mpr (.inl he)),
      fun a ha e he => h e (bind_eq_error.mpr (.inr ⟨a, ha, he⟩))⟩
  · rintro ⟨hx, hf⟩
    exact failsWith_bind hx hf

@[simp] theorem failsWith_map_iff {x : Except ε α} {f : α → β} :
    FailsWith P (f <$> x) ↔ FailsWith P x := by
  cases x <;> simp

@[simp] theorem failsWith_mapError_iff {ε' : Type} {x : Except ε' α} {f : ε' → ε} :
    FailsWith P (x.mapError f) ↔ FailsWith (fun e => P (f e)) x := by
  cases x <;> simp

end FailsWith

theorem checkedAddI64_eq_some {a b c : Int} :
    checkedAddI64 a b = some c ↔ (i64Min ≤ a + b ∧ a + b ≤ i64Max) ∧ a + b = c := by
  unfold checkedAddI64; split <;> simp_all

theorem checkedAddU64_eq_some {a b c : Nat} :
    checkedAddU64 a b = some c ↔ a + b ≤ u64Max ∧ a + b = c := by
  unfold checkedAddU64; split <;> simp_all

end Results

/-! ## Strings -/

/-- `str::starts_with`. -/
def startsWith (s start : String) : Prop := start.toList <+: s.toList

instance (s start : String) : Decidable (startsWith s start) :=
  inferInstanceAs (Decidable (_ <+: _))

/-- `str::ends_with`. -/
def endsWith (s tail : String) : Prop := tail.toList <:+ s.toList

instance (s tail : String) : Decidable (endsWith s tail) :=
  inferInstanceAs (Decidable (_ <:+ _))

/-- `str::strip_prefix`. -/
def stripStart (s start : String) : Option String :=
  if startsWith s start then some (String.ofList (s.toList.drop start.toList.length)) else none

/-- `str::strip_suffix`. -/
def stripEnd (s tail : String) : Option String :=
  if endsWith s tail then
    some (String.ofList (s.toList.take (s.toList.length - tail.toList.length)))
  else none

/-- The bytes that may stand in topic names, cluster prefixes and group tokens. -/
def safeChar (c : Char) : Bool :=
  c.isAlphanum || c == '.' || c == '_' || c == '-'

namespace Log

/-! ## Bounds -/

def manifestSchema : Nat := 1
def indexSchema : Nat := 4
def maxCasAttempts : Nat := 128
def maxBatchBytes : Nat := 16 * 1024 * 1024
def maxManifestBytes : Nat := 4 * 1024 * 1024
def maxManifestSegments : Nat := 10000
def topicMetadataSchema : Nat := 1
def maxTopicMetadataBytes : Nat := 4 * 1024
def defaultTopicPartitions : Int := 1
def maxTopicPartitions : Int := 1024
def maxBatchRecords : Nat := 100000
def pageEntries : Nat := 64
/-- `index::MAX_LEVEL`. -/
def maxIndexLevel : Nat := 10
/-- `producer::MAX_LEVEL`. -/
def maxProducerLevel : Nat := 12
def retryBatches : Nat := 5

/-! ## Durable data -/

structure TopicMetadata where
  schema : Nat
  partitionCount : Int
  deriving DecidableEq, Repr

/-- One committed record object. -/
structure Segment where
  object : String
  baseOffset : Int
  recordCount : Nat
  byteLength : Nat
  sha256 : String
  receivedAtMs : Option Nat
  deriving DecidableEq, Repr

/-- The flat manifest of schema 1. -/
structure Manifest where
  schema : Nat
  revision : Nat
  nextOffset : Int
  segments : List Segment
  deriving DecidableEq, Repr

/-- A parent's reference to an index page. -/
structure PageRef where
  object : String
  firstOffset : Int
  nextOffset : Int
  segmentCount : Nat
  level : Nat
  byteLength : Nat
  sha256 : String
  deriving DecidableEq, Repr

/-- An index page. -/
inductive Page where
  | leaf (segments : List Segment)
  | branch (children : List PageRef)
  deriving DecidableEq, Repr

/-- A parent's reference to a producer page. -/
structure ProducerRef where
  object : String
  firstId : Int
  lastId : Int
  count : Nat
  level : Nat
  byteLength : Nat
  sha256 : String
  deriving DecidableEq, Repr

/-- One accepted batch of a producer. -/
structure BatchIdentity where
  sequence : Int
  count : Nat
  baseOffset : Int
  fingerprint : String
  deriving DecidableEq, Repr

/-- A producer's current epoch and its latest batches. -/
structure ProducerState where
  id : Int
  epoch : Int
  batches : List BatchIdentity
  deriving DecidableEq, Repr

/-- A page of the producer directory. -/
inductive ProducerPage where
  | leaf (producers : List ProducerState)
  | branch (children : List ProducerRef)
  deriving DecidableEq, Repr

/-- The manifest of schemas 2 to 4. -/
structure Root where
  schema : Nat
  revision : Nat
  startOffset : Int
  adoptedAtMs : Option Nat
  nextOffset : Int
  tree : Option PageRef
  producers : Option ProducerRef
  tail : List Segment
  deriving DecidableEq, Repr

/-- `Root::default`. -/
def Root.empty : Root where
  schema := indexSchema
  revision := 0
  startOffset := 0
  adoptedAtMs := some 0
  nextOffset := 0
  tree := none
  producers := none
  tail := []

/-- A manifest of any schema. -/
inductive LogManifest where
  | legacy (manifest : Manifest)
  | indexed (root : Root)
  deriving DecidableEq, Repr

namespace LogManifest

def startOffset : LogManifest → Int
  | legacy _ => 0
  | indexed root => root.startOffset

def nextOffset : LogManifest → Int
  | legacy m => m.nextOffset
  | indexed root => root.nextOffset

def revision : LogManifest → Nat
  | legacy m => m.revision
  | indexed root => root.revision

/-- The producer directory: schema 1 has none. -/
def producers : LogManifest → Option ProducerRef
  | legacy _ => none
  | indexed root => root.producers

end LogManifest

/-- What an object holds. `raw` bytes are those of a record batch, or anything that is
none of the documents. -/
inductive Body where
  | raw (bytes : List UInt8)
  | metadata (metadata : TopicMetadata)
  | manifest (manifest : LogManifest)
  | page (page : Page)
  | producerPage (page : ProducerPage)
  deriving DecidableEq, Repr

/-- The bytes of a record batch; a document is not one. -/
def Body.bytes : Body → Option (List UInt8)
  | .raw bytes => some bytes
  | .metadata _ | .manifest _ | .page _ | .producerPage _ => none

/-- A version read with an object and required by a conditional update. -/
abbrev UpdateVersion := Body

/-! ## Records -/

/-- A decoded Kafka record. -/
structure Record where
  transactional : Bool
  control : Bool
  deleteHorizon : Bool
  partitionLeaderEpoch : Int
  producerId : Int
  producerEpoch : Int
  /-- `TimestampType::LogAppend` rather than `Creation`. -/
  logAppendTime : Bool
  offset : Int
  sequence : Int
  timestamp : Int
  key : Option (List UInt8)
  value : Option (List UInt8)
  headers : List (String × Option (List UInt8))
  producerId_i64 : producerId ≤ i64Max
  deriving DecidableEq, Repr

/-- The record at another offset. -/
def Record.shift (delta : Int) (r : Record) : Record := { r with offset := r.offset + delta }

def noProducerId : Int := -1
def noProducerEpoch : Int := -1
def noSequence : Int := -1

/-- What `decode_batch_info` reads from one batch header. -/
structure BatchDecodeInfo where
  recordCount : Int
  compressed : Bool
  minOffset : Int
  minTimestamp : Int
  baseSequence : Int
  producerId : Int
  deriving DecidableEq, Repr

/-! ## Results and errors -/

structure AppendResult where
  baseOffset : Int
  lastOffset : Int
  deriving DecidableEq, Repr

structure OffsetRange where
  earliest : Int
  latest : Int
  deriving DecidableEq, Repr

structure BoundedFetch where
  records : List UInt8
  highWatermark : Int
  oversizedFirstBatch : Bool
  deriving DecidableEq, Repr

structure MaintenanceOptions where
  maxAgeMs : Option Nat
  maxBytes : Option Nat
  apply : Bool
  maxObjects : Nat
  deriving DecidableEq, Repr

structure MaintenanceReport where
  topic : String
  partition : Int
  applied : Bool
  publicationUncertain : Bool
  previousStartOffset : Int
  startOffset : Int
  nextOffset : Int
  maxAgeMs : Option Nat
  maxBytes : Option Nat
  formatAdoption : Bool
  retainedBatches : Nat
  retainedRecordBytes : Nat
  expiredBatches : Nat
  expiredRecordBytes : Nat
  removableObjects : Nat
  removableBytes : Nat
  collectedObjects : Nat
  collectedBytes : Nat
  deriving DecidableEq, Repr

inductive LogError where
  | invalidTopic (topic : String)
  | invalidTopicMetadata (detail : String)
  | unknownTopic (topic : String)
  | unsupportedPartition (partition : Int)
  | emptyBatch
  | unsupportedRecordSemantics
  | outOfOrderSequence
  | invalidProducerEpoch
  | conflictingSequence
  | invalidOffset (offset : Int)
  | offsetOutOfRange (offset latest : Int)
  | batchTooLarge (actual maximum : Nat)
  | tooManyRecords (actual maximum : Nat)
  | manifestTooLarge (actual maximum : Nat)
  | offsetOverflow
  | invalidTimestampRange
  | revisionOverflow
  | invalidManifest (detail : String)
  | missingSegment (object : String) (source : StoreError)
  | corruptSegment (object detail : String)
  | codec (detail : String)
  | objectStore (source : StoreError)
  | invalidMaintenance (detail : String)
  | maintenanceBudget (maximum : Nat)
  | maintenanceIncomplete (report : MaintenanceReport) (source : LogError)
  | contentionExhausted (attempts : Nat)
  deriving DecidableEq, Repr

/-- `index::invalid`. -/
def invalid (detail : String) : LogError := .invalidManifest detail

/-! ## Names -/

/-- The common start of the names of a partition's objects. -/
def partitionPath (keyPrefix topic : String) (partition : Int) : String :=
  keyPrefix ++ "/topics/" ++ topic ++ "/" ++ toString partition ++ "/"

def segmentsNamespace (keyPrefix topic : String) (partition : Int) : String :=
  partitionPath keyPrefix topic partition ++ "segments/"

def indexNamespace (keyPrefix topic : String) (partition : Int) : String :=
  partitionPath keyPrefix topic partition ++ "index/"

def producerNamespace (keyPrefix topic : String) (partition : Int) : String :=
  partitionPath keyPrefix topic partition ++ "producer-state/"

/-- `valid_checksum`: 64 ASCII hexadecimal digits. -/
def validChecksum (checksum : String) : Bool :=
  checksum.toList.length == 64 &&
    checksum.toList.all fun c =>
      c.isDigit || (97 ≤ c.val && c.val ≤ 102) || (65 ≤ c.val && c.val ≤ 70)

def validateTopic (topic : String) : Except LogError Unit :=
  if topic ≠ "" ∧ topic.toList.length ≤ 249 ∧ topic ≠ "." ∧ topic ≠ ".." ∧
      topic.toList.all safeChar then .ok ()
  else .error (.invalidTopic topic)

def validatePartitionCount (partitionCount : Int) : Except LogError Unit :=
  if defaultTopicPartitions ≤ partitionCount ∧ partitionCount ≤ maxTopicPartitions then .ok ()
  else .error (.invalidTopicMetadata ("partition count " ++ toString partitionCount ++
    " is outside " ++ toString defaultTopicPartitions ++ "..=" ++ toString maxTopicPartitions))

def validatePartition (partition partitionCount : Int) : Except LogError Unit :=
  if 0 ≤ partition ∧ partition < partitionCount then .ok ()
  else .error (.unsupportedPartition partition)

/-- `S3Settings::cluster_prefix` joins safe path components with slashes. -/
def SafePath (path : String) : Prop :=
  ∀ component ∈ path.toList.splitOn '/', component ≠ [] ∧ component ≠ ['.'] ∧
    component ≠ ['.', '.'] ∧ component.all safeChar = true

/-- An engine on the store, with a cluster prefix that `S3Settings` admits. Engines that
differ only in the partition count they give new topics (`default_topic_partitions`) share
one log; the methods that use the count take it as an argument. -/
structure LogEngine where
  keyPrefix : String
  prefix_safe : SafePath keyPrefix

/-- A partition count that `validate_partition_count` accepts. -/
structure PartitionCount where
  value : Int
  valid : validatePartitionCount value = .ok ()
  deriving DecidableEq, Repr

namespace LogEngine

variable (self : LogEngine) (topic : String) (partition : Int)

def topicMetadataPath : String := self.keyPrefix ++ "/topics/" ++ topic ++ "/metadata.json"

def manifestPath : String := partitionPath self.keyPrefix topic partition ++ "manifest.json"

end LogEngine

/-! ## Third-party crates -/

/-- What the log uses of crates whose code is not part of it, with the facts about them
that it relies on. -/
structure Crates where
  /-- `Uuid::to_string`. -/
  uuidToString : Uuid → String
  /-- `Uuid::parse_str`. -/
  uuidParseStr : String → Option Uuid
  uuid_parse_toString : ∀ id, uuidParseStr (uuidToString id) = some id
  /-- The length of `serde_json::to_vec`. -/
  jsonLength : Body → Nat
  jsonLength_pos : ∀ body, 0 < jsonLength body
  /-- The text of the `serde_json` error for a body of the wrong kind. -/
  jsonError : Body → String
  /-- The SHA-256 digest of a body in hexadecimal. -/
  sha256Hex : Body → String
  sha256Hex_valid : ∀ body, validChecksum (sha256Hex body) = true
  /-- `Path::parse`, which hands back the path it accepts. -/
  pathParse : String → Except String String
  pathParse_segment : ∀ (keyPrefix topic : String) (partition : Int) (id : Uuid),
    SafePath keyPrefix → validateTopic topic = .ok () →
    pathParse (segmentsNamespace keyPrefix topic partition ++ uuidToString id ++ ".batch") =
      .ok (segmentsNamespace keyPrefix topic partition ++ uuidToString id ++ ".batch")
  /-- `Path::from`, which escapes special characters. The names below have none, and the
  names that the engine formats itself are written without it. -/
  pathFrom : String → String
  pathFrom_segment : ∀ (keyPrefix topic : String) (partition : Int) (id : Uuid),
    SafePath keyPrefix → validateTopic topic = .ok () →
    pathFrom (segmentsNamespace keyPrefix topic partition ++ uuidToString id ++ ".batch") =
      segmentsNamespace keyPrefix topic partition ++ uuidToString id ++ ".batch"
  pathFrom_index : ∀ (keyPrefix topic : String) (partition : Int) (id : Uuid),
    SafePath keyPrefix → validateTopic topic = .ok () →
    pathFrom (indexNamespace keyPrefix topic partition ++ uuidToString id ++ ".json") =
      indexNamespace keyPrefix topic partition ++ uuidToString id ++ ".json"
  pathFrom_producer : ∀ (keyPrefix topic : String) (partition : Int) (id : Uuid),
    SafePath keyPrefix → validateTopic topic = .ok () →
    pathFrom (producerNamespace keyPrefix topic partition ++ uuidToString id ++ ".json") =
      producerNamespace keyPrefix topic partition ++ uuidToString id ++ ".json"
  /-- `RecordBatchEncoder::encode`, version 2, uncompressed. -/
  encode : List Record → Except String (List UInt8)
  /-- The offsets of a batch stand in a field of fixed width. -/
  encode_shift : ∀ (records : List Record) (delta : Int) (bytes : List UInt8),
    encode records = .ok bytes →
    (∀ r ∈ records, i64Min ≤ r.offset + delta ∧ r.offset + delta ≤ i64Max) →
    ∃ bytes', encode (records.map (Record.shift delta)) = .ok bytes' ∧
      bytes'.length = bytes.length
  /-- `RecordBatchDecoder::decode_batch_info`: the headers and the bytes after them. -/
  decodeBatchInfo : List UInt8 → Option (List BatchDecodeInfo × List UInt8)
  /-- `RecordBatchDecoder::decode_all`: the records of each batch and the bytes left. -/
  decodeAll : List UInt8 → Option (List (List Record) × List UInt8)

namespace Crates

variable (crates : Crates)

/-- The length of an object. -/
def size : Body → Nat
  | .raw bytes => bytes.length
  | body => crates.jsonLength body

variable (self : LogEngine) (topic : String) (partition : Int) (id : Uuid)

def segmentPath : String :=
  segmentsNamespace self.keyPrefix topic partition ++ crates.uuidToString id ++ ".batch"

def indexPath : String :=
  indexNamespace self.keyPrefix topic partition ++ crates.uuidToString id ++ ".json"

def producerPath : String :=
  producerNamespace self.keyPrefix topic partition ++ crates.uuidToString id ++ ".json"

/-- The name is `namespace`, a UUID in any accepted notation, and `suffix`. -/
def namesUuid (space suffix object : String) : Bool :=
  (((stripStart object space).bind fun name => stripEnd name suffix).bind
    crates.uuidParseStr).isSome

end Crates

end Log

end Walstream

import Walstream.Group.Membership
import Walstream.Log.ProducerIds

/-!
# Committed offsets

`group.rs`: the durable offsets of a consumer group are one object, read whole and replaced
whole by conditional writes. What the store uses of other crates is a parameter (`OffsetJson`).
-/

namespace Walstream.Group

open Interaction Log
open Std (ExtTreeMap)

/-! ## Bounds -/

def offsetSchema : Nat := 1
def maxOffsetManifestBytes : Nat := 1024 * 1024
def maxGroupOffsets : Nat := 10000
def maxComponentBytes : Nat := 249
def maxCommitMetadataBytes : Nat := 4 * 1024

/-! ## Positions -/

/-- Topic-partition key for one committed consumer position. -/
structure TopicPartition where
  topic : String
  partition : Int
  deriving DecidableEq, Repr

/-- The derived `Ord`: by topic, then by partition. -/
instance : Ord TopicPartition :=
  ⟨compareLex (compareOn TopicPartition.topic) (compareOn TopicPartition.partition)⟩

instance : Std.TransOrd TopicPartition := inferInstanceAs
  (Std.TransCmp (compareLex (compareOn TopicPartition.topic) (compareOn TopicPartition.partition)))

instance : Std.LawfulEqOrd TopicPartition where
  eq_of_compare {a b} h := by
    have hboth := compareLex_eq_eq.mp h
    have htopic : a.topic = b.topic := Std.LawfulEqOrd.eq_of_compare hboth.1
    have hpartition : a.partition = b.partition := Std.LawfulEqOrd.eq_of_compare hboth.2
    cases a
    cases b
    simp_all

/-- Durable consumer position returned to OffsetFetch. -/
@[ext] structure CommittedOffset where
  offset : Int
  metadata : Option String
  offset_i64 : offset ≤ i64Max
  deriving Repr

instance : DecidableEq CommittedOffset := fun _ _ =>
  decidable_of_iff _ CommittedOffset.ext_iff.symm

/-- One position of an answer to OffsetFetch, or its absence. -/
structure FetchedOffset where
  topicPartition : TopicPartition
  committed : Option CommittedOffset
  deriving DecidableEq, Repr

/-- `BTreeMap<TopicPartition, CommittedOffset>`. -/
abbrev Offsets := ExtTreeMap TopicPartition CommittedOffset compare

/-- The key of a commit. -/
def OffsetCommit.key (commit : OffsetCommit) : TopicPartition := ⟨commit.topic, commit.partition⟩

/-- The position that a commit sets. -/
def OffsetCommit.position (commit : OffsetCommit) : CommittedOffset :=
  ⟨commit.offset, commit.metadata, commit.offset_i64⟩

/-- One entry of the durable manifest. -/
@[ext] structure OffsetEntry where
  topic : String
  partition : Int
  offset : Int
  metadata : Option String
  offset_i64 : offset ≤ i64Max
  deriving Repr

instance : DecidableEq OffsetEntry := fun _ _ => decidable_of_iff _ OffsetEntry.ext_iff.symm

def OffsetEntry.key (entry : OffsetEntry) : TopicPartition := ⟨entry.topic, entry.partition⟩

def OffsetEntry.position (entry : OffsetEntry) : CommittedOffset :=
  ⟨entry.offset, entry.metadata, entry.offset_i64⟩

/-- The entry of a position. -/
def OffsetEntry.of (p : TopicPartition × CommittedOffset) : OffsetEntry :=
  ⟨p.1.topic, p.1.partition, p.2.offset, p.2.metadata, p.2.offset_i64⟩

/-! ## Checks -/

inductive IdentifierKind where
  | group
  | topic

def validateComponent (value : String) (kind : IdentifierKind) : Except GroupError Unit :=
  if value ≠ "" ∧ value.utf8ByteSize ≤ maxComponentBytes ∧ value ≠ "." ∧ value ≠ ".." ∧
      value.toList.all safeChar then .ok ()
  else match kind with
    | .group => .error (.invalidGroupId value)
    | .topic => .error (.invalidTopic value)

def validatePartition (partition : Int) : Except GroupError Unit :=
  rejectIf (¬ (0 ≤ partition ∧ partition < maxTopicPartitions)) (.unsupportedPartition partition)

def validateOffset (offset : Int) : Except GroupError Unit :=
  rejectIf (¬ 0 ≤ offset) (.invalidOffset offset)

def validateMetadata (metadata : Option String) : Except GroupError Unit :=
  rejectIf (metadata.any fun value => value.utf8ByteSize > maxCommitMetadataBytes)
    (.metadataTooLarge maxCommitMetadataBytes)

/-- The checks on one position, in a request as in a manifest. -/
def validatePosition (key : TopicPartition) (offset : Int) (metadata : Option String) :
    Except GroupError Unit := do
  validateComponent key.topic .topic
  validatePartition key.partition
  validateOffset offset
  validateMetadata metadata

/-- The loop of `validate_commits`, with the keys seen so far. -/
def validateCommitsFrom : List OffsetCommit → List TopicPartition → Except GroupError Unit
  | [], _ => .ok ()
  | commit :: commits, keys => do
    validatePosition commit.key commit.offset commit.metadata
    rejectIf (commit.key ∈ keys) (.duplicateCommit commit.topic commit.partition)
    validateCommitsFrom commits (commit.key :: keys)

def validateCommits (commits : List OffsetCommit) : Except GroupError Unit := do
  rejectIf (commits.length > maxGroupOffsets) (.offsetLimit maxGroupOffsets)
  validateCommitsFrom commits []

/-- The loop of `validate_selection`, with the keys seen so far. -/
def validateSelectionFrom : List TopicPartition → List TopicPartition → Except GroupError Unit
  | [], _ => .ok ()
  | key :: selection, keys => do
    validateComponent key.topic .topic
    validatePartition key.partition
    rejectIf (key ∈ keys) (.duplicateFetch key.topic key.partition)
    validateSelectionFrom selection (key :: keys)

def validateSelection (selection : List TopicPartition) : Except GroupError Unit := do
  rejectIf (selection.length > maxGroupOffsets) (.offsetLimit maxGroupOffsets)
  validateSelectionFrom selection []

def validatePrefix (keyPrefix : String) : Except GroupError Unit :=
  rejectIf (keyPrefix = "" ∨ startsWith keyPrefix "/" ∨ endsWith keyPrefix "/" ∨
      ∃ part ∈ keyPrefix.toList.splitOn '/', part = [] ∨ part = ['.'] ∨ part = ['.', '.'])
    .invalidPrefix

/-! ## The manifest -/

structure OffsetManifest where
  schema : Nat
  revision : Nat
  offsets : List OffsetEntry
  deriving DecidableEq, Repr

/-- `OffsetManifest::default`. -/
def OffsetManifest.empty : OffsetManifest := ⟨offsetSchema, 0, []⟩

/-- A manifest as the JSON parser hands it over: the array of offsets is still a sequence, with
its hint of the size. -/
structure ParsedManifest where
  schema : Nat
  revision : Nat
  sizeHint : Option Nat
  offsets : List (Except String OffsetEntry)

/-- What the store uses of `serde_json`, which reads back what it writes, and of the standard
library's Unicode tables. -/
structure OffsetJson where
  /-- `serde_json::to_vec`. -/
  toVec : OffsetManifest → Document
  /-- `serde_json::from_slice`, up to the offsets. -/
  parse : Document → Except String ParsedManifest
  /-- The text of an error that a visitor raises in this document. -/
  located : Document → String → String
  /-- `{:?}` of a text. -/
  debug : String → String
  parse_toVec : ∀ m : OffsetManifest, m.schema = offsetSchema → m.revision ≤ u64Max →
    (∀ entry ∈ m.offsets, validatePosition entry.key entry.offset entry.metadata = .ok ()) →
    parse (toVec m) = .ok ⟨m.schema, m.revision, none, m.offsets.map .ok⟩

/-- The loop of `visit_seq`, after `count` offsets. -/
def visitSeqFrom : List (Except String OffsetEntry) → (count : Nat) → Except String (List OffsetEntry)
  | [], _ => .ok []
  | element :: elements, count => do
    let offset ← element
    -- an offset beyond the limit is read before it is refused
    rejectIf (count = maxGroupOffsets) "committed offset limit exceeded"
    return offset :: (← visitSeqFrom elements (count + 1))

/-- `deserialize_offsets`. -/
def visitSeq (sizeHint : Option Nat) (elements : List (Except String OffsetEntry)) :
    Except String (List OffsetEntry) := do
  rejectIf (sizeHint.any (· > maxGroupOffsets)) "committed offset limit exceeded"
  visitSeqFrom elements 0

/-- `serde_json::from_slice` of a manifest. -/
def OffsetJson.fromSlice (json : OffsetJson) (bytes : Document) : Except String OffsetManifest := do
  let parsed ← json.parse bytes
  -- an error of the visitor is placed in the document
  let offsets ← (visitSeq parsed.sizeHint parsed.offsets).mapError (json.located bytes)
  return ⟨parsed.schema, parsed.revision, offsets⟩

/-- `GroupError`'s `Display`, of the errors of `validate_position`. -/
def GroupError.toText (json : OffsetJson) : GroupError → String
  | .invalidTopic topic => "invalid topic name " ++ json.debug topic
  | .unsupportedPartition partition =>
    "partition " ++ toString partition ++ " is outside Walstream's supported range"
  | .invalidOffset offset => "committed offset " ++ toString offset ++ " must not be negative"
  | .metadataTooLarge maximum => "committed offset metadata exceeds " ++ toString maximum ++ " bytes"
  | _ => ""

/-- The loop of `offset_map`, with the map so far. -/
def offsetMapFrom (json : OffsetJson) : List OffsetEntry → Offsets → Except GroupError Offsets
  | [], offsets => .ok offsets
  | entry :: entries, offsets => do
    (validatePosition entry.key entry.offset entry.metadata).mapError fun e =>
      .invalidManifest (e.toText json)
    rejectIf (entry.key ∈ offsets)
      (.invalidManifest "offset manifest contains duplicate topic-partitions")
    offsetMapFrom json entries (offsets.insert entry.key entry.position)

namespace OffsetManifest

variable (self : OffsetManifest) (json : OffsetJson)

def offsetMap : Except GroupError Offsets := offsetMapFrom json self.offsets ∅

def validate : Except GroupError Unit := do
  rejectIf (self.schema ≠ offsetSchema) (.invalidManifest ("unsupported schema " ++ toString self.schema))
  let _ ← self.offsetMap json

end OffsetManifest

/-- The offsets after a commit. -/
def commitOffsets (offsets : Offsets) (commits : List OffsetCommit) : Offsets :=
  commits.foldl (fun offsets commit => offsets.insert commit.key commit.position) offsets

/-- The manifest after a commit. -/
def OffsetManifest.next (self : OffsetManifest) (json : OffsetJson) (commits : List OffsetCommit) :
    Except GroupError OffsetManifest := do
  let offsets := commitOffsets (← self.offsetMap json) commits
  -- offsets of earlier commits count as well
  rejectIf (offsets.size > maxGroupOffsets) (.offsetLimit maxGroupOffsets)
  let revision ← okOr (checkedAddU64 self.revision 1) .revisionOverflow
  return { self with revision := revision, offsets := offsets.toList.map OffsetEntry.of }

/-- The bytes that a commit writes. -/
def OffsetManifest.rewrite (self : OffsetManifest) (json : OffsetJson)
    (commits : List OffsetCommit) : Except GroupError Document := do
  let next ← self.next json commits
  let bytes := json.toVec next
  rejectIf (bytes.length > maxOffsetManifestBytes)
    (.manifestTooLarge bytes.length maxOffsetManifestBytes)
  return bytes

/-! ## The store -/

structure LoadedOffsetManifest where
  manifest : OffsetManifest
  version : Option Document

/-- `LoadedOffsetManifest::empty`. -/
def LoadedOffsetManifest.empty : LoadedOffsetManifest := ⟨.empty, none⟩

/-- What `load` makes of an object. -/
def acceptOffsets (json : OffsetJson) (result : GetResult Document) :
    Except GroupError LoadedOffsetManifest := do
  -- the size is known before the body is read
  rejectIf (result.size > maxOffsetManifestBytes) (.invalidManifest ("offset manifest is " ++
    toString result.size ++ " bytes; maximum is " ++ toString maxOffsetManifestBytes))
  let bytes ← (collectDocument result maxOffsetManifestBytes).mapError fun
    | .store e => .objectStore e
    | .tooLarge => .invalidManifest ("offset manifest body exceeds " ++
      toString maxOffsetManifestBytes ++ " bytes")
  let manifest ← (json.fromSlice bytes).mapError .invalidManifest
  manifest.validate json
  return ⟨manifest, some result.version⟩

/-- Bounded durable offset store for independent Kafka consumer groups. -/
structure GroupStore where
  keyPrefix : String
  prefix_valid : validatePrefix keyPrefix = .ok ()

namespace GroupStore

/-- A method of the store. -/
abbrev Method := ExceptT GroupError (Prog (Cmd Document) Resp)

def maxCasAttempts : Nat := 128

variable (self : GroupStore) (json : OffsetJson) (group : String)

def offsetPath : String := self.keyPrefix ++ "/groups/" ++ group ++ "/offsets.json"

def load : Method (Option LoadedOffsetManifest) := do
  match ← request (.get (self.offsetPath group)) with
  | .ok result => return some (← ofResult (acceptOffsets json result))
  | .error .notFound => return none
  | .error e => throw (.objectStore e)

/-- The loop of `commit` with `attempts` to go. -/
def commitAttempts (commits : List OffsetCommit) : (attempts : Nat) → Method Unit
  | 0 => throw (.contentionExhausted maxCasAttempts)
  | attempts + 1 => do
    let loaded := (← self.load json group).getD LoadedOffsetManifest.empty
    let bytes ← ofResult (loaded.manifest.rewrite json commits)
    let mode := loaded.version.elim .create .update
    match ← request (.put (self.offsetPath group) bytes mode) with
    | .ok _ => return ()
    -- another commit came first
    | .error .alreadyExists | .error .precondition => commitAttempts commits attempts
    | .error e => throw (.objectStore e)

/-- Atomically apply every valid entry in one OffsetCommit request. -/
def commit (commits : List OffsetCommit) : Method Unit := do
  ofResult (validateComponent group .group)
  ofResult (validateCommits commits)
  -- an empty commit does not touch the store
  if commits = [] then return ()
  self.commitAttempts json group commits maxCasAttempts

/-- The offsets that `load` finds. -/
def loadOffsets : Method Offsets := do
  match ← self.load json group with
  -- a group without an object has committed nothing
  | none => return ∅
  | some loaded => ofResult (loaded.manifest.offsetMap json)

/-- Load every committed position for a group in deterministic key order. -/
def offsets : Method Offsets := do
  ofResult (validateComponent group .group)
  self.loadOffsets json group

/-- What `fetch` answers from these offsets. -/
def select (selection : Option (List TopicPartition)) (offsets : Offsets) : List FetchedOffset :=
  match selection with
  | some selection => selection.map fun key => ⟨key, offsets[key]?⟩
  | none => offsets.toList.map fun p => ⟨p.1, some p.2⟩

/-- Fetch selected positions in request order, or every position in key order. -/
def fetch (selection : Option (List TopicPartition)) : Method (List FetchedOffset) := do
  ofResult (validateComponent group .group)
  ofResult (selection.elim (.ok ()) validateSelection)
  return select selection (← self.loadOffsets json group)

end GroupStore

end Walstream.Group

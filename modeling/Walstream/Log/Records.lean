import Walstream.Interaction.Answers
import Walstream.Log.Codec

/-!
# The partition log: setting and pure checks

`PartitionLog` is what every method of the log works on: the engine, the crates it is
linked against, and one partition of one topic. `Engine` is the monad of its methods:
requests to the store, and failure with a `LogError`.

The checks on records and segments below are those of `log.rs`; none of them touches the
store.
-/

namespace Walstream.Log

open Interaction

/-- An engine at work on one partition. -/
structure PartitionLog where
  crates : Crates
  engine : LogEngine
  topic : String
  partition : Int

namespace PartitionLog

variable (self : PartitionLog)

abbrev keyPrefix : String := self.engine.keyPrefix

def segmentPath (id : Uuid) : String := self.crates.segmentPath self.engine self.topic self.partition id
def indexPath (id : Uuid) : String := self.crates.indexPath self.engine self.topic self.partition id
def producerPath (id : Uuid) : String :=
  self.crates.producerPath self.engine self.topic self.partition id
def manifestPath : String := self.engine.manifestPath self.topic self.partition
def topicMetadataPath : String := self.engine.topicMetadataPath self.topic

end PartitionLog

/-! ## The methods' monad -/

/-- A method of the log: it talks to the store and may fail. -/
abbrev Engine := ExceptT LogError (Prog (Cmd Body) Resp)

namespace Engine

/-- `?` on a result that needs no store. -/
def check {α : Type} (r : Except LogError α) : Engine α := ExceptT.mk (pure r)

/-- One request to the store. -/
def perform (c : Cmd Body) : Engine (Resp c) := ExceptT.lift (Prog.perform c)

/-- `?` on the answer of the store. -/
def orStore {α : Type} (r : Except StoreError α) : Engine α :=
  match r with
  | .ok a => pure a
  | .error e => throw (.objectStore e)

end Engine

section Engine

variable {α β : Type} {r : Except LogError α} {n : Nat}

theorem issues_check {φ : Cmd Body → Prop} : Issues φ (Engine.check r) := trivial

theorem yields_check {a : α} (h : Yields (Engine.check r) a) : r = .ok a := by
  cases h
  rfl

theorem doneWithin_check : DoneWithin (Engine.check r) n := trivial

theorem doneWithin_check_bind {f : α → Engine β} (h : ∀ a, r = .ok a → DoneWithin (f a) n) :
    DoneWithin (do f (← Engine.check r)) n :=
  doneWithin_bind (m := 0) doneWithin_check (fun a ha => h a (yields_check ha)) (by omega)

theorem doneWithin_perform {c : Cmd Body} {f : Resp c → Engine β}
    (h : ∀ answer, DoneWithin (f answer) n) :
    DoneWithin (do f (← Engine.perform c)) (n + 1) :=
  doneWithin_bind (m := 1) ⟨0, rfl, fun _ => trivial⟩ (fun answer _ => h answer) (by omega)

theorem doneWithin_orStore {answer : Except StoreError α} {f : α → Engine β}
    (h : ∀ a, DoneWithin (f a) n) : DoneWithin (do f (← Engine.orStore answer)) n := by
  cases answer with
  | ok a => exact h a
  | error e => exact doneWithin_throw

end Engine

/-- Why reading a body failed. -/
inductive BoundedReadError where
  | store (source : StoreError)
  | tooLarge
  deriving DecidableEq, Repr

/-- `collect_bounded`. -/
def Crates.collectBounded (crates : Crates) (result : GetResult Body) (maximumBytes : Nat) :
    Except BoundedReadError Body :=
  match result.body with
  | .error e => .error (.store e)
  | .ok body => if crates.size body > maximumBytes then .error .tooLarge else .ok body

/-! ## Segments -/

/-- `Segment::last_offset`. -/
def Segment.lastOffset (segment : Segment) : Except LogError Int :=
  okOr (checkedAddI64 segment.baseOffset (segment.recordCount - 1)) .offsetOverflow

namespace PartitionLog

variable (self : PartitionLog)

/-- The loop of `validate_segments`: the next expected offset and the objects seen. -/
def validateSegmentsFrom : List Segment → Int → List String → Except LogError Int
  | [], nextOffset, _ => .ok nextOffset
  | segment :: segments, nextOffset, objects => do
    rejectIf (segment.baseOffset ≠ nextOffset) (invalid "segment offsets are not contiguous")
    rejectIf (segment.recordCount = 0 ∨ segment.byteLength = 0)
      (invalid "segment has an empty record or byte count")
    rejectIf (segment.recordCount > maxBatchRecords ∨ segment.byteLength > maxBatchBytes)
      (invalid "segment exceeds the writer's record or byte bound")
    rejectIf (¬ startsWith segment.object
          (segmentsNamespace self.keyPrefix self.topic self.partition) ∨
        ¬ endsWith segment.object ".batch" ∨ segment.object ∈ objects)
      (invalid "segment object is outside the partition or duplicated")
    rejectIf (validChecksum segment.sha256 = false)
      (invalid "segment checksum is not a SHA-256 hex digest")
    let next ← okOr (checkedAddI64 (← segment.lastOffset) 1) .offsetOverflow
    validateSegmentsFrom segments next (segment.object :: objects)

/-- `validate_segments`: the offset after the last segment. -/
def validateSegments (segments : List Segment) (start : Int) : Except LogError Int :=
  self.validateSegmentsFrom segments start []

/-- `Manifest::validate`. -/
def validateManifest (m : Manifest) : Except LogError Unit := do
  rejectIf (m.schema ≠ manifestSchema) (invalid ("unsupported schema " ++ toString m.schema))
  rejectIf (m.revision ≠ m.segments.length)
    (invalid "revision does not match committed segment count")
  let nextOffset ← self.validateSegments m.segments 0
  rejectIf (m.nextOffset ≠ nextOffset)
    (invalid "next offset does not match committed segments")

end PartitionLog

/-! ## Records -/

/-- `i32::wrapping_add`. -/
def wrappingAddI32 (a b : Int) : Int := (a + b).bmod (2 ^ 32)

/-- The record carries semantics the log does not support. -/
def Record.unsupported (r : Record) : Prop :=
  r.transactional = true ∨ r.control = true ∨ r.deleteHorizon = true ∨
    (r.producerId = noProducerId ∧ r.producerEpoch ≠ noProducerEpoch) ∨
    r.producerId < noProducerId ∨ (r.producerId ≥ 0 ∧ r.producerEpoch < 0)

instance (r : Record) : Decidable r.unsupported := by
  unfold Record.unsupported; infer_instance

/-- The record does not continue the identity of the batch's first record. -/
def Record.breaksIdentity (first r : Record) (delta : Nat) : Prop :=
  r.producerId ≠ first.producerId ∨ r.producerEpoch ≠ first.producerEpoch ∨
    r.sequence ≠ wrappingAddI32 first.sequence delta

instance (first r : Record) (delta : Nat) : Decidable (Record.breaksIdentity first r delta) := by
  unfold Record.breaksIdentity; infer_instance

/-- `validate_records`. -/
def validateRecords (records : List Record) : Except LogError Unit :=
  match records with
  | [] => .error .emptyBatch
  | first :: _ => do
    rejectIf (∃ r ∈ records, r.unsupported) .unsupportedRecordSemantics
    rejectIf (first.producerId ≥ 0 ∧ (first.sequence < 0 ∨
      ∃ x ∈ records.zipIdx, Record.breaksIdentity first x.1 x.2)) .unsupportedRecordSemantics

/-- `validate_timestamp_span`. -/
def validateTimestampSpan (records : List Record) : Except LogError Unit :=
  match (records.map (·.timestamp)).min?, (records.map (·.timestamp)).max? with
  | some minimum, some maximum =>
    rejectIf (checkedAddI64 maximum (-minimum) = none) .invalidTimestampRange
  | _, _ => .ok ()

/-- One record of `assigned_records`. -/
def Record.assign (baseOffset : Int) (r : Record) (delta : Nat) : Record :=
  { r with
    offset := baseOffset + delta
    sequence := if r.producerId = noProducerId then wrappingAddI32 noSequence delta else r.sequence
    partitionLeaderEpoch := -1 }

/-- `assigned_records`. -/
def assignedRecords (records : List Record) (baseOffset : Int) :
    Except LogError (List Record) := do
  rejectIf (∃ delta ∈ List.range records.length, checkedAddI64 baseOffset (delta : Nat) = none)
    .offsetOverflow
  return records.zipIdx.map fun x => x.1.assign baseOffset x.2

namespace Crates

variable (crates : Crates)

/-- `encode_records`. -/
def encodeRecords (records : List Record) : Except LogError (List UInt8) :=
  match crates.encode records with
  | .ok bytes => .ok bytes
  | .error text => .error (.codec text)

end Crates

/-- `validate_segment_records`. -/
def validateSegmentRecords (segment : Segment) (records : List Record) : Except LogError Unit :=
  rejectIf (records.length ≠ segment.recordCount ∨
      ∃ x ∈ records.zipIdx, x.1.offset ≠ segment.baseOffset + (x.2 : Nat))
    (.corruptSegment segment.object "decoded record offsets or count do not match manifest")

/-- The text of an error of `validate_records` or `validate_timestamp_span`. -/
def LogError.recordText : LogError → String
  | .emptyBatch => "append batch must contain at least one record"
  | .invalidTimestampRange => "record timestamps span a range that Kafka v2 cannot encode"
  | _ => "invalid producer identity or unsupported transactional/control record semantics"

/-- `validate_canonical_segment_records`. -/
def validateCanonicalSegmentRecords (segment : Segment) (records : List Record) :
    Except LogError Unit := do
  (validateRecords records).mapError fun source => .corruptSegment segment.object
    ("committed records use unsupported semantics: " ++ source.recordText)
  (validateTimestampSpan records).mapError fun source => .corruptSegment segment.object
    ("committed timestamps are not canonical: " ++ source.recordText)
  let firstSequence := match records with
    | first :: _ => if first.producerId ≥ 0 then first.sequence else noSequence
    | [] => noSequence
  rejectIf (∃ x ∈ records.zipIdx, x.1.partitionLeaderEpoch ≠ -1 ∨ 2 ^ 31 ≤ x.2 ∨
      x.1.sequence ≠ wrappingAddI32 firstSequence x.2)
    (.corruptSegment segment.object "record leader epoch or sequence is not canonical")

end Walstream.Log

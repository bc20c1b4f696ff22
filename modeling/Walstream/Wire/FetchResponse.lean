import Walstream.Log.FetchSafety

/-!
# Answers to Fetch

`protocol.rs`, `fetch_response`: the handler fetches one partition of the request after the
other, from what is left of the bytes the response may have. Until a partition has records, its
first segment may exceed what is left.

The handler is a program that talks to the store. What is proved of its responses holds
whatever the store answers, so that other clients may change the partitions in the meantime.
-/

namespace Walstream.Wire

open Interaction Log

/-! ## Bounds -/

def maxFetchPayloadBytes : Nat := 1024 * 1024

/-- `usize::try_from(bytes).unwrap_or_default().min(MAX_FETCH_PAYLOAD_BYTES)`, of an `i32`. -/
def payloadBytes (bytes : Int) : Nat := min bytes.toNat maxFetchPayloadBytes

/-! ## Error codes -/

/-- `ResponseError::InvalidFetchSize.code()`. -/
def invalidFetchSize : Int := 4

/-- `ResponseError::InvalidRequest.code()`. -/
def invalidRequest : Int := 42

/-- `log_error_code`. -/
def logErrorCode : LogError → Int
  -- `InvalidTopicException`
  | .invalidTopic _ => 17
  -- `UnknownTopicOrPartition`
  | .unknownTopic _ | .unsupportedPartition _ => 3
  -- `OutOfOrderSequenceNumber`
  | .outOfOrderSequence => 45
  -- `InvalidProducerEpoch`
  | .invalidProducerEpoch => 47
  -- `InvalidRecord`
  | .conflictingSequence => 87
  | .emptyBatch => invalidRequest
  -- `UnsupportedForMessageFormat`
  | .unsupportedRecordSemantics => 43
  -- `InvalidTimestamp`
  | .invalidTimestampRange => 32
  -- `OffsetOutOfRange`
  | .invalidOffset _ | .offsetOutOfRange _ _ => 1
  -- `MessageTooLarge`
  | .batchTooLarge _ _ | .tooManyRecords _ _ => 10
  -- `CorruptMessage`
  | .invalidTopicMetadata _ | .invalidManifest _ | .missingSegment _ _ | .corruptSegment _ _
  | .codec _ => 2
  -- `KafkaStorageError`
  | .invalidMaintenance _ | .maintenanceBudget _ | .maintenanceIncomplete _ _ | .offsetOverflow
  | .revisionOverflow | .manifestTooLarge _ _ | .objectStore _ | .contentionExhausted _ => 56

/-! ## Requests and responses -/

structure FetchPartition where
  partition : Int
  fetchOffset : Int
  partitionMaxBytes : Int
  deriving DecidableEq, Repr

structure FetchTopic where
  topic : String
  partitions : List FetchPartition
  deriving DecidableEq, Repr

structure FetchRequest where
  replicaId : Int
  maxBytes : Int
  topics : List FetchTopic
  deriving DecidableEq, Repr

/-- One partition of a response. A field that is `none` keeps its default, which has no
records. -/
structure PartitionData where
  partitionIndex : Int
  errorCode : Int
  highWatermark : Option Int
  lastStableOffset : Option Int
  records : Option (List UInt8)
  deriving DecidableEq, Repr

structure FetchableTopicResponse where
  topic : String
  partitions : List PartitionData
  deriving DecidableEq, Repr

structure FetchResponse where
  responses : List FetchableTopicResponse
  deriving DecidableEq, Repr

/-- `PartitionData::default().with_partition_index(index)`. -/
def PartitionData.new (partitionIndex : Int) : PartitionData := ⟨partitionIndex, 0, none, none, none⟩

namespace FetchRequest

variable (request : FetchRequest)

/-- The partitions of the request, in its order. -/
def partitions : List (String × FetchPartition) :=
  request.topics.flatMap fun topic => topic.partitions.map fun partition => (topic.topic, partition)

end FetchRequest

/-- The partitions of the response, in its order. -/
def FetchResponse.partitions (response : FetchResponse) : List (String × PartitionData) :=
  response.responses.flatMap fun topic =>
    topic.partitions.map fun partition => (topic.topic, partition)

/-! ## The handler -/

/-- What the loop over the partitions carries along. -/
structure FetchBudget where
  remaining : Nat
  firstNonemptyPartition : Bool
  deriving DecidableEq, Repr

/-- The budget after a partition with these records. -/
def FetchBudget.spend (budget : FetchBudget) (records : List UInt8) : FetchBudget :=
  if records = [] then budget else ⟨budget.remaining - records.length, false⟩

section Handler

variable (crates : Crates) (engine : LogEngine) (request : FetchRequest)

end Handler

/-! ## What one partition is given -/

/-- A partition of the request with its part of the response, and the segments whose records it
carries. -/
structure Exchange where
  topic : String
  asked : FetchPartition
  data : PartitionData
  segments : List Segment

namespace Exchange

/-- The record bytes that the partition carries. -/
def bytes (x : Exchange) : List UInt8 := x.data.records.getD []

/-- The partition was fetched below its high watermark. -/
def Behind (x : Exchange) : Prop :=
  x.data.errorCode = 0 ∧ ∃ highWatermark ∈ x.data.highWatermark, x.asked.fetchOffset < highWatermark

/-- Why a partition is refused, and the code that says so. -/
inductive Refused (crates : Crates) (engine : LogEngine) (request : FetchRequest)
    (x : Exchange) : Prop where
  | size (why : request.maxBytes ≤ 0 ∨ x.asked.partitionMaxBytes ≤ 0)
      (code : x.data.errorCode = invalidFetchSize)
  | follower (why : request.replicaId ≠ -1) (code : x.data.errorCode = invalidRequest)
  | failed (error : LogError) (limit : Nat) (allow : Bool)
      (returned : ((PartitionLog.mk crates engine x.topic x.asked.partition).fetchBounded
        x.asked.fetchOffset limit allow).run.Returns (.error error))
      (code : x.data.errorCode = logErrorCode error)

/-- What the part of a partition in the response is. Unless the partition is refused, its high
watermark is the one of a manifest that was loaded. -/
inductive Carries (crates : Crates) (engine : LogEngine) (request : FetchRequest)
    (x : Exchange) : Prop where
  /-- The partition is refused, and has no records. -/
  | refused (why : x.Refused crates engine request) (code : x.data.errorCode ≠ 0)
      (watermark : x.data.highWatermark = none) (segments : x.segments = []) (bytes : x.bytes = [])
  /-- The offset is the high watermark, and there are no records. -/
  | nothing (code : x.data.errorCode = 0) (loaded : Option LoadedManifest)
      (read : Yields (PartitionLog.mk crates engine x.topic x.asked.partition).loadManifest loaded)
      (watermark : x.data.highWatermark =
        some (loaded.getD LoadedManifest.empty).manifest.nextOffset)
      (reached : x.asked.fetchOffset = (loaded.getD LoadedManifest.empty).manifest.nextOffset)
      (segments : x.segments = []) (bytes : x.bytes = [])
  /-- The offset is below the high watermark, and the records are consecutive whole segments of
  the manifest, from the one with the offset on. -/
  | run (code : x.data.errorCode = 0) (loaded : Option LoadedManifest)
      (read : Yields (PartitionLog.mk crates engine x.topic x.asked.partition).loadManifest loaded)
      (watermark : x.data.highWatermark =
        some (loaded.getD LoadedManifest.empty).manifest.nextOffset)
      (below : x.asked.fetchOffset < (loaded.getD LoadedManifest.empty).manifest.nextOffset)
      (listed : ∀ s ∈ x.segments, (PartitionLog.mk crates engine x.topic x.asked.partition).Lists
        (loaded.getD LoadedManifest.empty).manifest s)
      (tiles : ∃ a b, SegmentTiles x.segments a b)
      (first : ∀ s ∈ x.segments.head?,
        s.baseOffset ≤ x.asked.fetchOffset ∧ x.asked.fetchOffset < s.endOffset)
      (whole : (PartitionLog.mk crates engine x.topic x.asked.partition).Whole x.segments x.bytes)

end Exchange

section Served

variable {crates : Crates} {engine : LogEngine} {request : FetchRequest}

/-- What one round of the loop gives to a partition, and what it leaves of the budget. -/
structure Served (crates : Crates) (engine : LogEngine) (request : FetchRequest)
    (budget : FetchBudget) (x : Exchange) (budget' : FetchBudget) : Prop where
  carries : x.Carries crates engine request
  within : x.bytes.length ≤ min (payloadBytes x.asked.partitionMaxBytes) budget.remaining ∨
    budget.firstNonemptyPartition = true ∧ x.segments.length = 1
  spent : budget' = budget.spend x.bytes
  progress : budget.firstNonemptyPartition = true → x.Behind → x.bytes ≠ []

theorem logErrorCode_ne_zero (e : LogError) : logErrorCode e ≠ 0 := by
  cases e <;> simp [logErrorCode, invalidRequest]

theorem Exchange.Refused.code_ne_zero {x : Exchange} (h : x.Refused crates engine request) :
    x.data.errorCode ≠ 0 := by
  cases h with
  | size why code =>
    rw [code]
    decide
  | follower why code =>
    rw [code]
    decide
  | failed error limit allow returned code =>
    rw [code]
    exact logErrorCode_ne_zero error

/-- One round after the other. -/
inductive ServedAll (crates : Crates) (engine : LogEngine) (request : FetchRequest) :
    FetchBudget → List Exchange → FetchBudget → Prop where
  | nil (budget : FetchBudget) : ServedAll crates engine request budget [] budget
  | cons {budget budget₁ budget' : FetchBudget} {x : Exchange} {xs : List Exchange}
      (first : Served crates engine request budget x budget₁)
      (rest : ServedAll crates engine request budget₁ xs budget') :
      ServedAll crates engine request budget (x :: xs) budget'

theorem ServedAll.append {budget budget₁ budget' : FetchBudget} {xs ys : List Exchange}
    (h : ServedAll crates engine request budget xs budget₁)
    (h' : ServedAll crates engine request budget₁ ys budget') :
    ServedAll crates engine request budget (xs ++ ys) budget' := by
  induction h with
  | nil => exact h'
  | cons first _ ih => exact .cons first (ih h')

/-- The record bytes of these partitions. -/
def recordBytes (xs : List Exchange) : Nat := (xs.map (·.bytes.length)).sum

theorem Served.silent {budget budget' : FetchBudget} {x : Exchange}
    (h : Served crates engine request budget x budget') (hx : x.bytes = []) : budget' = budget := by
  rw [h.spent, hx]
  rfl

/-- What a response may carry: all its records fit the budget, or only one partition has records
and they are one segment; each partition has as many bytes as it may have, or is the first
one with records and has one segment; and if somebody is behind, somebody has records. -/
structure WithinBudget (budget : Nat) (xs : List Exchange) : Prop where
  total : recordBytes xs ≤ budget ∨ ∃ before x after, xs = before ++ x :: after ∧
    x.bytes ≠ [] ∧ x.segments.length = 1 ∧ ∀ y ∈ before ++ after, y.bytes = []
  each : ∀ before x after, xs = before ++ x :: after →
    x.bytes.length ≤ payloadBytes x.asked.partitionMaxBytes ∨
      (∀ y ∈ before, y.bytes = []) ∧ x.segments.length = 1
  progress : (∃ x ∈ xs, x.Behind) → ∃ x ∈ xs, x.bytes ≠ []

theorem ServedAll.carries {budget budget' : FetchBudget} {xs : List Exchange}
    (h : ServedAll crates engine request budget xs budget') : ∀ x ∈ xs, x.Carries crates engine request := by
  induction h with
  | nil => simp
  | cons first _ ih => exact List.forall_mem_cons.mpr ⟨first.carries, ih⟩

end Served

end Walstream.Wire

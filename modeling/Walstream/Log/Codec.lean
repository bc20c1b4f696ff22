import Walstream.Log.Format

/-!
# Validation of encoded record batches

`codec.rs`: every byte of a Kafka v2 batch is walked before the third-party decoder may
allocate anything for it. The decoder itself is a parameter (`Crates`).
-/

namespace Walstream.Log

open Interaction

def maxHeadersPerRecord : Nat := 1024
def maxHeadersPerRequest : Nat := 32768

inductive CodecError where
  | malformed
  | unsupportedCompression
  | tooManyRecords
  | tooManyHeaders
  | duplicateHeaders
  | arithmeticOverflow
  deriving DecidableEq, Repr

/-- `CodecError`'s `Display`. -/
def CodecError.toText : CodecError → String
  | malformed => "malformed Kafka v2 record data"
  | unsupportedCompression => "compressed Kafka record batches are unsupported"
  | tooManyRecords => "Kafka record count exceeds the broker limit"
  | tooManyHeaders => "Kafka header count exceeds the broker limit"
  | duplicateHeaders => "duplicate Kafka record header keys cannot be preserved"
  | arithmeticOverflow => "Kafka record delta arithmetic overflow"

structure BatchInspection where
  batchCount : Nat
  recordCount : Nat
  batchRecordCounts : List Nat
  recordHeaderCounts : List Nat
  deriving DecidableEq, Repr

/-! ## Raw readers -/

/-- A reader that consumes the front of a byte slice (`&mut &[u8]`). -/
abbrev RawReader := StateT (List UInt8) (Except CodecError)

/-- `take_raw`. -/
def takeRaw (length : Nat) : RawReader (List UInt8) := fun input =>
  if input.length < length then .error .malformed
  else .ok (input.take length, input.drop length)

/-- The loop of `read_unsigned_var` with `fuel` bytes to go. -/
def readUnsignedVarFrom (maximumBytes : Nat) : (fuel index value : Nat) → RawReader Nat
  | 0, _, _ => throw .malformed
  | fuel + 1, index, value => do
    let byte := ((← takeRaw 1).headD 0).toNat
    let payload := byte % 128
    let shift := index * 7
    -- the last byte of a group has room for the bits that are left
    if (shift = 28 ∧ maximumBytes = 5 ∧ payload > 15) ∨
        (shift = 63 ∧ maximumBytes = 10 ∧ payload > 1) then
      throw .malformed
    let value := value ||| (payload <<< shift)
    if byte < 128 then return value
    readUnsignedVarFrom maximumBytes fuel (index + 1) value

/-- `read_unsigned_var`. -/
def readUnsignedVar (maximumBytes : Nat) : RawReader Nat :=
  readUnsignedVarFrom maximumBytes maximumBytes 0 0

/-- `((value >> 1) as iN) ^ -((value & 1) as iN)`. -/
def unZigZag (width value : Nat) : Int :=
  let bits := BitVec.ofNat width value
  ((bits >>> 1) ^^^ (-(bits &&& BitVec.ofNat width 1))).toInt

/-- `read_var_i32`. -/
def readVarI32 : RawReader Int := do
  let value ← readUnsignedVar 5
  if value ≥ 2 ^ 32 then throw .malformed
  return unZigZag 32 value

/-- `read_var_i64`. -/
def readVarI64 : RawReader Int := do
  return unZigZag 64 (← readUnsignedVar 10)

/-- `usize::try_from` of a signed length. -/
def toUsize (length : Int) : RawReader Nat :=
  if length < 0 then throw .malformed else return length.toNat

/-- `take_nullable_raw`. -/
def takeNullableRaw : RawReader Unit := do
  let length ← readVarI32
  -- a length of -1 stands for null
  if length = -1 then return ()
  else if length ≥ 0 then
    let _ ← takeRaw length.toNat
    return ()
  else throw .malformed

/-- `i32::from_be_bytes`. -/
def i32FromBeBytes (bytes : List UInt8) : Int :=
  (BitVec.ofNat 32 (bytes.foldl (fun n b => n * 256 + b.toNat) 0)).toInt

/-! ## Records and batches -/

/-- One header: a non-null key and a nullable value. -/
def skipHeader : RawReader Unit := do
  let keyLength ← toUsize (← readVarI32)
  let _ ← takeRaw keyLength
  takeNullableRaw

def skipHeaders : Nat → RawReader Unit
  | 0 => return ()
  | n + 1 => do
    skipHeader
    skipHeaders n

/-- The body of one record; the result is its header count. -/
def validateRecordBody (info : BatchDecodeInfo) (ordinal aggregateHeaders : Nat) :
    RawReader Nat := do
  let attributes ← takeRaw 1
  -- no attribute is defined for records
  if attributes ≠ [0] then throw .malformed
  let timestampDelta ← readVarI64
  if (checkedAddI64 info.minTimestamp timestampDelta).isNone then throw .arithmeticOverflow
  let offsetDelta ← readVarI32
  -- a batch of a producer numbers its records from 0 on
  if offsetDelta < 0 ∨
      (info.producerId ≥ 0 ∧ (info.baseSequence < 0 ∨ offsetDelta ≠ ordinal)) then
    throw .malformed
  if (checkedAddI64 info.minOffset offsetDelta).isNone then throw .arithmeticOverflow
  takeNullableRaw
  takeNullableRaw
  let headerCount ← toUsize (← readVarI32)
  let rest ← get
  -- two bytes are the least that a header takes
  if headerCount > maxHeadersPerRecord ∨
      aggregateHeaders + headerCount > maxHeadersPerRequest ∨
      headerCount * 2 > rest.length then
    throw .tooManyHeaders
  skipHeaders headerCount
  -- nothing may follow the last header
  if (← get) ≠ [] then throw .malformed
  return headerCount

/-- The records of one batch body from ordinal `ordinal` on; the result are their header
counts. -/
def validateRecordsFrom (info : BatchDecodeInfo) :
    (remaining ordinal aggregateHeaders : Nat) → RawReader (List Nat)
  | 0, _, _ => return []
  | remaining + 1, ordinal, aggregateHeaders => do
    let recordLength ← toUsize (← readVarI32)
    let record ← takeRaw recordLength
    match (validateRecordBody info ordinal aggregateHeaders).run record with
    | .error e => throw e
    | .ok (headerCount, _) =>
      let counts ← validateRecordsFrom info remaining (ordinal + 1)
        (aggregateHeaders + headerCount)
      return headerCount :: counts

/-- One batch: the frame, the last-offset check of idempotent batches, the records. -/
def validateRawBatch (info : BatchDecodeInfo) (aggregateHeaders : Nat) :
    RawReader (List Nat) := do
  let head ← takeRaw 12
  let batchLength ← toUsize (i32FromBeBytes (head.drop 8))
  let batch ← takeRaw batchLength
  -- the rest of the header of a batch
  if batch.length < 49 then throw .malformed
  -- the last offset of a batch of a producer is that of its last record
  if info.producerId ≥ 0 ∧
      i32FromBeBytes ((batch.drop 11).take 4) ≠ info.recordCount - 1 then
    throw .malformed
  match (validateRecordsFrom info info.recordCount.toNat 0 aggregateHeaders).run
      (batch.drop 49) with
  | .error e => throw e
  | .ok (counts, rest) =>
    -- the records fill the batch
    if rest ≠ [] then throw .malformed
    return counts

/-- The batches of the slice; the header counts of all their records. -/
def validateRawBatches : List BatchDecodeInfo → (aggregateHeaders : Nat) → RawReader (List Nat)
  | [], _ => do
    if (← get) ≠ [] then throw .malformed
    return []
  | info :: infos, aggregateHeaders => do
    let counts ← validateRawBatch info aggregateHeaders
    return counts ++ (← validateRawBatches infos (aggregateHeaders + counts.sum))

/-- `validate_raw_records`. -/
def validateRawRecords (encoded : List UInt8) (infos : List BatchDecodeInfo) :
    Except CodecError (List Nat) :=
  match (validateRawBatches infos 0).run encoded with
  | .ok (counts, _) => .ok counts
  | .error e => .error e

/-! ## Inspection and decoding -/

/-- The total record count, `None` when one is negative. -/
def totalRecordCount (infos : List BatchDecodeInfo) : Option Nat :=
  -- a count that is negative is refused
  infos.foldlM (fun total info =>
    if info.recordCount < 0 then none else checkedAddU64 total info.recordCount.toNat) 0

namespace Crates

variable (crates : Crates)

/-- `inspect_record_batches`. -/
def inspectRecordBatches (encoded : List UInt8) : Except CodecError BatchInspection := do
  rejectIf (encoded = []) .malformed
  let (infos, remaining) ← okOr (crates.decodeBatchInfo encoded) .malformed
  rejectIf (remaining ≠ [] ∨ infos = []) .malformed
  rejectIf (infos.any (·.compressed)) .unsupportedCompression
  -- no record is read before the number of records is checked
  let recordCount ← okOr (totalRecordCount infos) .tooManyRecords
  rejectIf (recordCount > maxBatchRecords) .tooManyRecords
  let recordHeaderCounts ← validateRawRecords encoded infos
  return {
    batchCount := infos.length
    recordCount := recordCount
    batchRecordCounts := infos.map (·.recordCount.toNat)
    recordHeaderCounts := recordHeaderCounts }

/-- `decode_record_batches`. -/
def decodeRecordBatches (encoded : List UInt8) :
    Except CodecError (BatchInspection × List Record) := do
  let inspection ← crates.inspectRecordBatches encoded
  let (batches, remaining) ← okOr (crates.decodeAll encoded) .malformed
  rejectIf (remaining ≠ []) .malformed
  let records := batches.flatten
  rejectIf (records.length ≠ inspection.recordCount) .malformed
  -- headers with one key are merged by the decoder
  rejectIf ((records.zip inspection.recordHeaderCounts).any
    fun x => x.1.headers.length ≠ x.2) .duplicateHeaders
  return (inspection, records)

end Crates

end Walstream.Log

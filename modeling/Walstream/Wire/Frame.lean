import Walstream.Framing.Layout

/-!
# Structural validation of request frames

`wire.rs`: before a generated decoder may allocate anything for a request, a pass over
the frame checks that every count and length in it fits the frame. The pass is a state
machine over a `Cursor`; what it has consumed stays consumed when it fails.
-/

namespace Walstream.Wire

open Framing (Bytes signed)

def maxRequestCollectionItems : Nat := 10000

inductive WireError where
  | malformed (detail : String)
  | collectionLimit
  deriving DecidableEq, Repr

/-- `WireError`'s `Display`. -/
def WireError.toText : WireError → String
  | malformed detail => "malformed Kafka request layout: " ++ detail
  | collectionLimit => "Kafka request collection count exceeds the bounded frame layout"

/-- The APIs with a validator, and the codes of the others. -/
inductive ApiKey where
  | produce
  | fetch
  | listOffsets
  | metadata
  | offsetCommit
  | offsetFetch
  | findCoordinator
  | joinGroup
  | heartbeat
  | leaveGroup
  | syncGroup
  | apiVersions
  | initProducerId
  | other (code : Int)
  deriving DecidableEq, Repr

/-- `api_key as i16`. -/
def ApiKey.code : ApiKey → Int
  | produce => 0
  | fetch => 1
  | listOffsets => 2
  | metadata => 3
  | offsetCommit => 8
  | offsetFetch => 9
  | findCoordinator => 10
  | joinGroup => 11
  | heartbeat => 12
  | leaveGroup => 13
  | syncGroup => 14
  | apiVersions => 18
  | initProducerId => 22
  | other code => code

/-- `SUPPORTED_APIS` of `protocol.rs`: each advertised API with its least and its greatest
version. -/
def supportedApis : List (ApiKey × Int × Int) :=
  [(.produce, 7, 7), (.initProducerId, 0, 4), (.fetch, 4, 4), (.listOffsets, 3, 3),
    (.metadata, 4, 4), (.offsetCommit, 2, 2), (.offsetFetch, 3, 3), (.findCoordinator, 2, 2),
    (.joinGroup, 2, 2), (.heartbeat, 1, 1), (.leaveGroup, 1, 1), (.syncGroup, 1, 1),
    (.apiVersions, 0, 3)]

/-- `is_supported`. -/
def isSupported (apiKey : ApiKey) (version : Int) : Bool :=
  supportedApis.any fun (key, least, greatest) =>
    key = apiKey ∧ least ≤ version ∧ version ≤ greatest

/-! ## The cursor -/

structure Cursor where
  input : Bytes
  collectionItemsLeft : Nat
  /-- How many loop iterations over items have been started. The source has no such field:
  nothing reads it. -/
  itemSteps : Nat
  deriving DecidableEq, Repr

/-- `Cursor::new`. -/
def Cursor.new (input : Bytes) : Cursor := ⟨input, maxRequestCollectionItems, 0⟩

/-- A method on `&mut Cursor`. -/
abbrev Reading := ExceptT WireError (StateM Cursor)

/-- `take`. -/
def take (length : Nat) : Reading Bytes := do
  let cursor ← get
  if cursor.input.length < length then
    throw (.malformed "request field exceeds frame")
  set { cursor with input := cursor.input.drop length }
  return cursor.input.take length

/-- `i16`. -/
def i16 : Reading Int := return signed (← take 2)

/-- `i32`. -/
def i32 : Reading Int := return signed (← take 4)

/-- `classic_string`. -/
def classicString (nullable : Bool) : Reading Unit := do
  let length ← i16
  if length = -1 ∧ nullable then
    return
  else if 0 ≤ length then
    let _ ← take length.toNat
  else
    throw (.malformed "invalid string length")

/-- The loop of `unsigned_varint` with `fuel` bytes to go. -/
def unsignedVarintFrom : (fuel index value : Nat) → Reading Nat
  | 0, _, _ => throw (.malformed "unterminated varint")
  | fuel + 1, index, value => do
    let byte := ((← take 1).headD 0).toNat
    let payload := byte % 128
    if index = 4 ∧ 15 < payload then
      throw (.malformed "varint overflow")
    let value := value ||| (payload <<< (index * 7))
    if byte < 128 then
      return value
    else
      unsignedVarintFrom fuel (index + 1) value

/-- `unsigned_varint`. -/
def unsignedVarint : Reading Nat := unsignedVarintFrom 5 0 0

/-- `compact_string`. -/
def compactString : Reading Unit := do
  let length ← unsignedVarint
  if length = 0 then
    throw (.malformed "null compact string")
  let _ ← take (length - 1)

/-- `classic_bytes`. -/
def classicBytes (nullable : Bool) : Reading Unit := do
  let length ← i32
  if length = -1 ∧ nullable then
    return
  else if 0 ≤ length then
    let _ ← take length.toNat
  else
    throw (.malformed "invalid bytes length")

/-- `reserve_collection`. The product fits a `usize`: the count is within the budget. -/
def reserveCollection (count minimumItemBytes : Nat) : Reading Unit := do
  let cursor ← get
  if cursor.collectionItemsLeft < count ∨ cursor.input.length < count * minimumItemBytes then
    throw .collectionLimit
  set { cursor with collectionItemsLeft := cursor.collectionItemsLeft - count }

/-- `classic_array`. -/
def classicArray (nullable : Bool) (minimumItemBytes : Nat) : Reading (Option Nat) := do
  let count ← i32
  if count = -1 ∧ nullable then
    return none
  else if 0 ≤ count then
    reserveCollection count.toNat minimumItemBytes
    return some count.toNat
  else
    throw (.malformed "invalid array count")

/-- `.ok_or(WireError::Malformed(detail))`. -/
def orMalformed (count : Option Nat) (detail : String) : Reading Nat :=
  match count with
  | some count => return count
  | none => throw (.malformed detail)

/-- An iteration over an item begins. -/
def tick : Reading Unit := modify fun cursor => { cursor with itemSteps := cursor.itemSteps + 1 }

/-- `for _ in 0..count`. -/
def forItems : (count : Nat) → (body : Reading Unit) → Reading Unit
  | 0, _ => return
  | count + 1, body => do
    tick
    body
    forItems count body

/-- `if let Some(count) = .. { for _ in 0..count }`. -/
def forSomeItems (count : Option Nat) (body : Reading Unit) : Reading Unit :=
  match count with
  | some count => forItems count body
  | none => return

/-- The loop of `tagged_fields`. -/
def taggedFieldsFrom : (count : Nat) → (previous : Option Nat) → Reading Unit
  | 0, _ => return
  | count + 1, previous => do
    tick
    let tag ← unsignedVarint
    if previous.any fun previous => tag ≤ previous then
      throw (.malformed "tagged fields are duplicated or unordered")
    let size ← unsignedVarint
    let _ ← take size
    taggedFieldsFrom count (some tag)

/-- `tagged_fields`. -/
def taggedFields : Reading Unit := do
  let count ← unsignedVarint
  reserveCollection count 2
  taggedFieldsFrom count none

/-! ## One validator for each API -/

/-- `validate_api_versions`. -/
def validateApiVersions (version : Int) : Reading Unit := do
  if 3 ≤ version then
    compactString
    compactString
    taggedFields

/-- The transactional id of `validate_init_producer_id` where it is a compact string. -/
def compactTransactionalId : Reading Unit := do
  let length ← unsignedVarint
  if 0 < length then
    let _ ← take (length - 1)

/-- `validate_init_producer_id`. -/
def validateInitProducerId (version : Int) : Reading Unit := do
  if 2 ≤ version then compactTransactionalId else classicString true
  let _ ← take 4 -- transaction timeout
  if 3 ≤ version then
    let _ ← take 10 -- expected producer id and epoch
  if 2 ≤ version then
    taggedFields

/-- `validate_metadata`. -/
def validateMetadata : Reading Unit := do
  let topics ← classicArray true 2
  forSomeItems topics (classicString false)
  let _ ← take 1 -- allow_auto_topic_creation

/-- `validate_produce`. -/
def validateProduce : Reading Unit := do
  classicString true -- transactional id
  let _ ← take 6 -- acks and timeout
  let topics ← orMalformed (← classicArray false 6) "null topic array"
  forItems topics do
    classicString false
    let partitions ← orMalformed (← classicArray false 8) "null partition array"
    forItems partitions do
      let _ ← take 4 -- partition index
      classicBytes true

/-- `validate_fetch`. -/
def validateFetch : Reading Unit := do
  let _ ← take 17 -- replica id, wait/min/max bytes, isolation level
  let topics ← orMalformed (← classicArray false 6) "null topic array"
  forItems topics do
    classicString false
    let partitions ← orMalformed (← classicArray false 16) "null partition array"
    forItems partitions do
      let _ ← take 16 -- partition, fetch offset, partition max bytes

/-- `validate_list_offsets`. -/
def validateListOffsets : Reading Unit := do
  let _ ← take 5 -- replica id and isolation level
  let topics ← orMalformed (← classicArray false 6) "null topic array"
  forItems topics do
    classicString false
    let partitions ← orMalformed (← classicArray false 12) "null partition array"
    forItems partitions do
      let _ ← take 12 -- partition index and timestamp

/-- `validate_find_coordinator`. -/
def validateFindCoordinator : Reading Unit := do
  classicString false -- coordinator key
  let _ ← take 1 -- key type

/-- `validate_join_group`. -/
def validateJoinGroup : Reading Unit := do
  classicString false -- group id
  let _ ← take 8 -- session and rebalance timeouts
  classicString false -- member id
  classicString false -- protocol type
  let protocols ← orMalformed (← classicArray false 6) "null protocol array"
  forItems protocols do
    classicString false
    classicBytes false

/-- `validate_sync_group`. -/
def validateSyncGroup : Reading Unit := do
  classicString false -- group id
  let _ ← take 4 -- generation id
  classicString false -- member id
  let assignments ← orMalformed (← classicArray false 6) "null assignment array"
  forItems assignments do
    classicString false
    classicBytes false

/-- `validate_heartbeat`. -/
def validateHeartbeat : Reading Unit := do
  classicString false -- group id
  let _ ← take 4 -- generation id
  classicString false -- member id

/-- `validate_leave_group`. -/
def validateLeaveGroup : Reading Unit := do
  classicString false -- group id
  classicString false -- member id

/-- `validate_offset_commit`. -/
def validateOffsetCommit : Reading Unit := do
  classicString false -- group id
  let _ ← take 4 -- generation id
  classicString false -- member id
  let _ ← take 8 -- retention time
  let topics ← orMalformed (← classicArray false 6) "null offset-commit topic array"
  forItems topics do
    classicString false
    let partitions ← orMalformed (← classicArray false 14) "null offset-commit partition array"
    forItems partitions do
      let _ ← take 12 -- partition index and committed offset
      classicString true -- metadata

/-- `validate_offset_fetch`. -/
def validateOffsetFetch : Reading Unit := do
  classicString false -- group id
  let topics ← classicArray true 6
  forSomeItems topics do
    classicString false
    let partitions ← orMalformed (← classicArray false 4) "null offset-fetch partition array"
    let _ ← take (partitions * 4)

/-- The `match api_key` of `validate_request_frame`. -/
def validateBody (apiKey : ApiKey) (version : Int) : Reading Unit :=
  match apiKey with
  | .apiVersions => validateApiVersions version
  | .metadata => validateMetadata
  | .initProducerId => validateInitProducerId version
  | .produce => validateProduce
  | .fetch => validateFetch
  | .listOffsets => validateListOffsets
  | .findCoordinator => validateFindCoordinator
  | .joinGroup => validateJoinGroup
  | .syncGroup => validateSyncGroup
  | .heartbeat => validateHeartbeat
  | .leaveGroup => validateLeaveGroup
  | .offsetCommit => validateOffsetCommit
  | .offsetFetch => validateOffsetFetch
  | .other _ => throw (.malformed "unsupported request API")

/-- One side of the `||` that compares the header's key and version. -/
def expectI16 (value : Int) : Reading Unit := do
  if (← i16) ≠ value then
    throw (.malformed "request header key/version mismatch")

/-- The header of a request, as far as `validate_request_frame` walks it. -/
def validateHeader (apiKey : ApiKey) (version headerVersion : Int) : Reading Unit := do
  expectI16 apiKey.code
  expectI16 version
  let _ ← take 4 -- correlation id
  classicString true -- nullable client id
  if headerVersion = 1 then
    return
  else if headerVersion = 2 then
    taggedFields
  else
    throw (.malformed "unsupported request header version")

/-- The end of the frame. -/
def validateEnd : Reading Unit := do
  let cursor ← get
  unless cursor.input.isEmpty do
    throw (.malformed "trailing request bytes")

/-- The pass over the frame. `requestHeaderVersion` stands for the method of that name on
`kafka_protocol`'s `ApiKey`. -/
def walkFrame (requestHeaderVersion : ApiKey → Int → Int) (apiKey : ApiKey) (version : Int) :
    Reading Unit := do
  validateHeader apiKey version (requestHeaderVersion apiKey version)
  validateBody apiKey version
  validateEnd

/-- `validate_request_frame`, with the cursor as it was left. -/
def runFrame (requestHeaderVersion : ApiKey → Int → Int) (frame : Bytes) (apiKey : ApiKey)
    (version : Int) : Except WireError Unit × Cursor :=
  (walkFrame requestHeaderVersion apiKey version).run.run (Cursor.new frame)

/-- `validate_request_frame`. -/
def validateRequestFrame (requestHeaderVersion : ApiKey → Int → Int) (frame : Bytes)
    (apiKey : ApiKey) (version : Int) : Except WireError Unit :=
  (runFrame requestHeaderVersion frame apiKey version).1

end Walstream.Wire

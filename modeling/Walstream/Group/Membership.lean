import Walstream.Interaction.Sections
import Walstream.Log.Format
import Walstream.Order.TreeMaps

/-!
# Members of a consumer group

`coordinator.rs`: what clients send to join a group and to sync with it, what a group keeps
of it in memory, and the checks that a request passes before it is applied.

An `Instant` and a `Duration` are numbers of nanoseconds. A `BTreeMap` is an `ExtTreeMap`: two
maps are equal when their entries are, and iteration is in key order. `String`s compare by
code points, which is how their UTF-8 bytes compare. Blobs are lists of bytes, and the
length of a list is its `usize`.
-/

namespace Walstream.Group

open Interaction Log
open Std (ExtTreeMap)

/-! ## Bounds -/

def consumerProtocolType : String := "consumer"
def maxProtocols : Nat := 32
def maxGroupSlots : Nat := 10000
def maxGroupMembers : Nat := 1024
def maxIdentifierBytes : Nat := 249
def maxGroupBlobBytes : Nat := 1024 * 1024
def maxMemberProtocolBytes : Nat := 1024 * 1024
def maxGroupProtocolBytes : Nat := 16 * 1024 * 1024
def maxGroupAssignmentBytes : Nat := 16 * 1024 * 1024
def maxSessionTimeoutMs : Int := 300000

def i32Max : Int := 2 ^ 31 - 1

/-- `i32::checked_add`, of a number that is not negative. -/
def checkedAddI32 (a b : Int) : Option Int :=
  if a + b ≤ i32Max then some (a + b) else none

/-! ## Time -/

/-- `Duration::from_millis(ms as u64)`. -/
def fromMillis (ms : Int) : Nat := ms.toNat * 1000000

/-! ## Errors -/

/-- The Kafka error codes that the coordinator answers with. -/
inductive ResponseError where
  | unknownMemberId
  | groupMaxSizeReached
  | inconsistentGroupProtocol
  | rebalanceInProgress
  | illegalGeneration
  | invalidRequest
  | invalidSessionTimeout
  | unknownServerError
  | invalidGroupId
  | unknownTopicOrPartition
  | invalidCommitOffsetSize
  | offsetMetadataTooLarge
  | kafkaStorageError
  deriving DecidableEq, Repr

/-- Durable group-offset validation or persistence failure. -/
inductive GroupError where
  | invalidPrefix
  | invalidGroupId (group : String)
  | invalidTopic (topic : String)
  | unsupportedPartition (partition : Int)
  | invalidOffset (offset : Int)
  | metadataTooLarge (maximum : Nat)
  | duplicateCommit (topic : String) (partition : Int)
  | duplicateFetch (topic : String) (partition : Int)
  | offsetLimit (maximum : Nat)
  | manifestTooLarge (actual maximum : Nat)
  | revisionOverflow
  | invalidManifest (detail : String)
  | objectStore (source : StoreError)
  | contentionExhausted (attempts : Nat)
  deriving DecidableEq, Repr

/-- Coordinator semantic or durable-state failure. -/
inductive CoordinatorError where
  | kafka (error : ResponseError)
  | storage (error : GroupError)
  deriving DecidableEq, Repr

/-- How an operation ends without a result: with an error, or because an `expect` or an
`unreachable!` with this text is hit. -/
inductive Halt where
  | error (e : CoordinatorError)
  | panicked (text : String)
  deriving DecidableEq, Repr

/-- `CoordinatorError::kafka`. -/
abbrev Halt.kafka (error : ResponseError) : Halt := .error (.kafka error)

/-! ## Requests -/

/-- One assignor offered in JoinGroup, with opaque client-owned metadata. -/
structure JoinProtocol where
  name : String
  metadata : List UInt8
  deriving DecidableEq, Repr

/-- One member and its selected-protocol metadata exposed to the group leader. -/
structure JoinMember where
  memberId : String
  metadata : List UInt8
  deriving DecidableEq, Repr

/-- Successful JoinGroup state returned to one member. -/
structure JoinOutcome where
  generationId : Int
  protocolName : String
  leaderId : String
  memberId : String
  members : List JoinMember
  deriving DecidableEq, Repr

/-- One opaque leader assignment supplied through SyncGroup. -/
structure SyncAssignment where
  memberId : String
  assignment : List UInt8
  deriving DecidableEq, Repr

/-- One offset supplied by an OffsetCommit request. -/
@[ext] structure OffsetCommit where
  topic : String
  partition : Int
  offset : Int
  metadata : Option String
  offset_i64 : offset ≤ i64Max
  deriving Repr

instance : DecidableEq OffsetCommit := fun _ _ => decidable_of_iff _ OffsetCommit.ext_iff.symm

theorem zero_le_i64Max : 0 ≤ i64Max := by decide

/-! ## Groups -/

inductive GroupPhase where
  | joining
  | awaitingSync
  | stable
  deriving DecidableEq, Repr

structure MemberState where
  protocols : List JoinProtocol
  assignment : Option (List UInt8)
  sessionTimeout : Nat
  rebalanceTimeout : Nat
  deadline : Nat
  joinedRebalance : Nat
  joinResult : Option JoinOutcome
  deriving DecidableEq, Repr

abbrev Members := ExtTreeMap String MemberState compare

structure GroupState where
  generationId : Int
  rebalanceId : Nat
  phase : GroupPhase
  phaseDeadline : Nat
  protocolType : String
  protocolName : Option String
  leaderId : String
  members : Members

/-! ## Checks on requests -/

def validateToken (value : String) : Bool :=
  value ≠ "" ∧ value.toList.length ≤ maxIdentifierBytes ∧ value ≠ "." ∧ value ≠ ".." ∧
    value.toList.all safeChar

/-- `GroupStore::validate_group_id`. -/
def validateGroupId (group : String) : Except CoordinatorError Unit :=
  rejectIf (validateToken group = false) (.storage (.invalidGroupId group))

def validateSessionTimeout (sessionTimeoutMs : Int) : Except CoordinatorError Unit :=
  rejectIf (¬ (1 ≤ sessionTimeoutMs ∧ sessionTimeoutMs ≤ maxSessionTimeoutMs))
    (.kafka .invalidSessionTimeout)

def validateRebalanceTimeout (rebalanceTimeoutMs : Int) : Except CoordinatorError Unit :=
  rejectIf (¬ (1 ≤ rebalanceTimeoutMs ∧ rebalanceTimeoutMs ≤ maxSessionTimeoutMs))
    (.kafka .invalidSessionTimeout)

def validateMemberId (memberId : String) (allowEmpty : Bool) : Except CoordinatorError Unit :=
  -- only `join` may come without a member id
  if allowEmpty ∧ memberId = "" then .ok ()
  else rejectIf (validateToken memberId = false)
    (.kafka (if memberId = "" then .unknownMemberId else .invalidRequest))

/-- `retained_bytes_error`. -/
def retainedBytesError : CoordinatorError := .kafka .invalidRequest

/-- The loop of `validate_protocols`, with the names and the bytes seen so far. -/
def validateEachProtocol (names : List String) (retainedBytes : Nat) :
    List JoinProtocol → Except CoordinatorError Unit
  | [] => .ok ()
  | protocol :: protocols => do
    rejectIf (validateToken protocol.name = false ∨
      protocol.metadata.length > maxGroupBlobBytes ∨ protocol.name ∈ names)
      (.kafka .inconsistentGroupProtocol)
    let total ← okOr (checkedAddU64 retainedBytes protocol.name.utf8ByteSize) retainedBytesError
    let total ← okOr (checkedAddU64 total protocol.metadata.length) retainedBytesError
    rejectIf (total > maxMemberProtocolBytes) retainedBytesError
    validateEachProtocol (protocol.name :: names) total protocols

def validateProtocols (protocolType : String) (protocols : List JoinProtocol) :
    Except CoordinatorError Unit := do
  rejectIf (protocolType ≠ consumerProtocolType ∨ protocols = [] ∨
    protocols.length > maxProtocols) (.kafka .inconsistentGroupProtocol)
  validateEachProtocol [] 0 protocols

/-- The loop of `validate_assignments`. -/
def validateEachAssignment (memberIds : List String) (retainedBytes : Nat) :
    List SyncAssignment → Except CoordinatorError Unit
  | [] => .ok ()
  | assignment :: assignments => do
    validateMemberId assignment.memberId false
    rejectIf (assignment.assignment.length > maxGroupBlobBytes ∨
      assignment.memberId ∈ memberIds) (.kafka .invalidRequest)
    let total ← okOr (checkedAddU64 retainedBytes assignment.memberId.utf8ByteSize)
      retainedBytesError
    let total ← okOr (checkedAddU64 total assignment.assignment.length) retainedBytesError
    rejectIf (total > maxGroupAssignmentBytes) retainedBytesError
    validateEachAssignment (assignment.memberId :: memberIds) total assignments

def validateAssignments (assignments : List SyncAssignment) : Except CoordinatorError Unit := do
  rejectIf (assignments.length > maxGroupMembers) (.kafka .invalidRequest)
  validateEachAssignment [] 0 assignments

/-! ## Checks of a request against a group -/

/-- The loop of `protocol_bytes`. -/
def protocolBytesFrom (total : Nat) : List JoinProtocol → Option Nat
  | [] => some total
  | protocol :: protocols => do
    let total ← checkedAddU64 total protocol.name.utf8ByteSize
    let total ← checkedAddU64 total protocol.metadata.length
    protocolBytesFrom total protocols

def protocolBytes (protocols : List JoinProtocol) : Option Nat := protocolBytesFrom 0 protocols

/-- The loop of `validate_group_protocol_budget`. -/
def validateBudgetFrom (candidateId : String) (retainedBytes : Nat) :
    List (String × MemberState) → Except CoordinatorError Unit
  | [] => .ok ()
  | (memberId, member) :: members =>
    -- the candidate counts with its new protocols
    if memberId = candidateId then validateBudgetFrom candidateId retainedBytes members
    else do
      let bytes ← okOr (protocolBytes member.protocols) retainedBytesError
      let total ← okOr (checkedAddU64 retainedBytes bytes) retainedBytesError
      rejectIf (total > maxGroupProtocolBytes) retainedBytesError
      validateBudgetFrom candidateId total members

def validateGroupProtocolBudget (state : GroupState) (candidateId : String)
    (candidateProtocols : List JoinProtocol) : Except CoordinatorError Unit := do
  let retainedBytes ← okOr (protocolBytes candidateProtocols) retainedBytesError
  validateBudgetFrom candidateId retainedBytes state.members.toList

/-- One of the protocols has this name. -/
def offers (protocols : List JoinProtocol) (name : String) : Bool :=
  protocols.any fun protocol => protocol.name == name

def protocolsCompatible (state : GroupState) (candidateId : String)
    (candidateProtocols : List JoinProtocol) : Bool :=
  let choices :=
    -- the candidate may be the leader, or the group may have lost the one it names
    if state.leaderId = candidateId then candidateProtocols
    else match state.members[state.leaderId]? with
      | none => candidateProtocols
      | some member => member.protocols
  choices.any fun choice =>
    offers candidateProtocols choice.name &&
      state.members.toList.all fun (id, member) =>
        offers (if id = candidateId then candidateProtocols else member.protocols) choice.name

def selectProtocol (state : GroupState) : Option String := do
  let leader ← state.members[state.leaderId]?
  let choice ← leader.protocols.find? fun choice =>
    state.members.toList.all fun (_, member) => offers member.protocols choice.name
  return choice.name

/-- `exact_assignments`: the assignments by member, if there is exactly one for each. -/
def exactAssignments (state : GroupState) (assignments : List SyncAssignment) :
    Except CoordinatorError (ExtTreeMap String (List UInt8) compare) := do
  -- one assignment for each member, and none for anybody else
  rejectIf (assignments.length ≠ state.members.size) (.kafka .invalidRequest)
  let installed : ExtTreeMap String (List UInt8) compare :=
    .ofList (assignments.map fun assignment => (assignment.memberId, assignment.assignment))
  rejectIf (installed.size ≠ assignments.length ∨
    installed.keys.any (fun memberId => !state.members.contains memberId))
    (.kafka .invalidRequest)
  return installed

end Walstream.Group

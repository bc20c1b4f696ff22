import Walstream.Group.Membership

/-!
# Critical sections of the coordinator

`coordinator.rs`: what the operations do to a group while they hold its lock. A section runs
on the `Option<GroupState>` of a slot; what it has changed stays changed when it stops with
an error. All of them begin with `advance_group` (`Stage.run`).

Whether a group was `changed` decides who is notified. Here a waiter may look at the group at
any time, so that nothing depends on notifications.
-/

namespace Walstream.Group

open Interaction Log
open Std (ExtTreeMap)

/-- `r?`, for a check that touches nothing. -/
def checked {σ α : Type} (r : Except CoordinatorError α) : Section σ Halt α :=
  Section.check (r.mapError .error)

/-- `o.expect(text)`. -/
def expect {σ α : Type} (o : Option α) (text : String) : Section σ Halt α :=
  Section.orStop o (.panicked text)

/-- `members.values().map(|member| now + member.rebalance_timeout).max().unwrap_or(default)`. -/
def latestRejoin (members : Members) (now default : Nat) : Nat :=
  (members.toList.map fun p => now + p.2.rebalanceTimeout).max?.getD default

/-- `members.values().all(|member| member.joined_rebalance == rebalance_id)`. -/
def allJoined (members : Members) (rebalanceId : Nat) : Bool :=
  members.toList.all fun p => p.2.joinedRebalance == rebalanceId

/-! ## Rebalances -/

def ensureLeader : Section GroupState Halt Unit := do
  let state ← get
  -- the named leader may have left
  if state.leaderId ∈ state.members then return
  let first ← expect state.members.minKey? "nonempty group"
  set { state with leaderId := first }

/-- What `start_rebalance` leaves of each member. -/
def MemberState.restarted (member : MemberState) : MemberState :=
  { member with assignment := none, joinResult := none }

/-- The group at the start of its rebalance of this number. -/
def GroupState.restarted (state : GroupState) (now : Nat) (rebalanceId : Nat) : GroupState :=
  { state with
    rebalanceId
    phase := .joining
    protocolName := none
    phaseDeadline := latestRejoin state.members now now
    members := state.members.map fun _ member => member.restarted }

def startRebalance (now : Nat) : Section GroupState Halt Unit := do
  let state ← get
  let rebalanceId ← checked (okOr (checkedAddU64 state.rebalanceId 1) (.kafka .unknownServerError))
  set (state.restarted now rebalanceId)

/-- `if state.phase != Joining { start_rebalance(state, now)? }`. -/
def ensureRebalance (now : Nat) : Section GroupState Halt Unit := do
  if (← get).phase ≠ .joining then startRebalance now

/-- What the leader is told of one member. -/
def leaderMember (protocolName : String) (p : String × MemberState) :
    Section GroupState Halt JoinMember := do
  -- all members offer the selected protocol
  let protocol ← expect (p.2.protocols.find? fun protocol => protocol.name == protocolName)
    "selected protocol is common"
  return ⟨p.1, protocol.metadata⟩

/-- The group in a new generation, before its members are told. -/
def GroupState.generation (state : GroupState) (now : Nat) (generationId : Int)
    (protocolName : String) : GroupState :=
  { state with
    generationId
    phase := .awaitingSync
    protocolName := some protocolName
    phaseDeadline := latestRejoin state.members now now }

/-- The outcome of the generation for one of its members. -/
def outcomeOf (generationId : Int) (protocolName leaderId : String)
    (leaderMembers : List JoinMember) (id : String) : JoinOutcome where
  generationId := generationId
  protocolName := protocolName
  leaderId := leaderId
  memberId := id
  members := if id = leaderId then leaderMembers else []

/-- What `finalize_rebalance` leaves of each member. -/
def MemberState.finalized (member : MemberState) (now : Nat) (outcome : JoinOutcome) :
    MemberState :=
  { member with
    assignment := none
    deadline := now + member.sessionTimeout
    joinResult := some outcome }

/-- The members are told the outcome of the generation. -/
def GroupState.announce (state : GroupState) (now : Nat) (protocolName : String)
    (leaderMembers : List JoinMember) : GroupState :=
  { state with
    members := state.members.map fun id member => member.finalized now
      (outcomeOf state.generationId protocolName state.leaderId leaderMembers id) }

def finalizeRebalance (now : Nat) : Section GroupState Halt Unit := do
  ensureLeader
  let state ← get
  let protocolName ← checked (okOr (selectProtocol state) (.kafka .inconsistentGroupProtocol))
  let generationId ← checked (okOr (checkedAddI32 state.generationId 1) (.kafka .unknownServerError))
  set (state.generation now generationId protocolName)
  let leaderMembers ← state.members.toList.mapM (leaderMember protocolName)
  modify (·.announce now protocolName leaderMembers)

/-! ## `advance_group` -/

/-- Members whose deadline has passed leave the group. -/
def expireMembers (now : Nat) : Section (Option GroupState) Halt Bool := do
  let some state ← get | return false
  -- nobody has expired
  if state.members.toList.all (fun p => now < p.2.deadline) then return false
  let members := state.members.filter fun _ member => now < member.deadline
  -- the last member has left, and the group with it
  if members.isEmpty then
    set (none : Option GroupState)
    return true
  Section.within { state with members } do
    ensureLeader
    ensureRebalance now
  return true

/-- When the time to rejoin is over, members that have not rejoined leave the group. -/
def dropLaggards (now : Nat) : Section (Option GroupState) Halt Bool := do
  let some state ← get | return false
  if now < state.phaseDeadline then return false
  let members := state.members.filter fun _ member => member.joinedRebalance == state.rebalanceId
  -- nobody has rejoined in time
  if members.isEmpty then set (none : Option GroupState)
  else Section.within { state with members } ensureLeader
  return true

/-- The rebalance is complete once every member has joined it. -/
def completeRebalance (now : Nat) : Section (Option GroupState) Halt Bool := do
  let some state ← get | return false
  if allJoined state.members state.rebalanceId then
    Section.within state (finalizeRebalance now)
    return true
  return false

/-- The `match` on the phase. -/
def advancePhase (now : Nat) : Section (Option GroupState) Halt Bool := do
  let some state ← get | return false
  match state.phase with
  -- a rebalance may lose members and be completed in one step
  | .joining => do
    let dropped ← dropLaggards now
    let completed ← completeRebalance now
    return dropped || completed
  -- the leader has not submitted in time
  | .awaitingSync =>
    if now < state.phaseDeadline then return false
    Section.within state (startRebalance now)
    return true
  -- a stable group changes only when members come or go
  | .stable => return false

/-- `advance_group`: whether the group was changed. -/
def advanceGroup (now : Nat) : Section (Option GroupState) Halt Bool := do
  let expired ← expireMembers now
  let advanced ← advancePhase now
  return expired || advanced

/-- `active_group`: the group, in which the caller is a member of this generation. -/
def activeGroup (state : Option GroupState) (generationId : Int) (memberId : String) :
    Except CoordinatorError GroupState := do
  let state ← okOr state (.kafka .unknownMemberId)
  rejectIf (memberId ∉ state.members) (.kafka .unknownMemberId)
  rejectIf (state.generationId ≠ generationId) (.kafka .illegalGeneration)
  return state

/-! ## `join` -/

/-- The arguments of `join`. -/
structure JoinRequest where
  sessionTimeoutMs : Int
  rebalanceTimeoutMs : Int
  memberId : String
  protocolType : String
  protocols : List JoinProtocol
  deriving DecidableEq, Repr

namespace JoinRequest

variable (request : JoinRequest)

/-- The checks of `join` before it looks for the group. -/
def validate (group : String) : Except CoordinatorError Unit := do
  validateGroupId group
  validateSessionTimeout request.sessionTimeoutMs
  validateRebalanceTimeout request.rebalanceTimeoutMs
  validateMemberId request.memberId true
  validateProtocols request.protocolType request.protocols

/-- A member that has joined a rebalance with this request. -/
def member (now : Nat) (rebalanceId : Nat) : MemberState where
  protocols := request.protocols
  assignment := none
  sessionTimeout := fromMillis request.sessionTimeoutMs
  rebalanceTimeout := fromMillis request.rebalanceTimeoutMs
  deadline := now + fromMillis request.sessionTimeoutMs
  joinedRebalance := rebalanceId
  joinResult := none

/-- The group that the request's member founds. -/
def found (now : Nat) (assigned : String) : GroupState where
  generationId := 0
  rebalanceId := 1
  phase := .joining
  phaseDeadline := now + fromMillis request.rebalanceTimeoutMs
  protocolType := request.protocolType
  protocolName := none
  leaderId := assigned
  members := (∅ : Members).insert assigned (request.member now 1)

/-- The member of the request is put on file. -/
def register (now : Nat) (id : String) : Section GroupState Halt (String × Nat) := do
  let state ← get
  let members := state.members.insert id (request.member now state.rebalanceId)
  set { state with
    members
    phaseDeadline := latestRejoin members now (now + fromMillis request.rebalanceTimeoutMs) }
  return (id, state.rebalanceId)

/-- The member of a request without a member id is new. -/
def registerNew (now : Nat) (assigned : String) : Section GroupState Halt (String × Nat) := do
  -- a full group takes no new member
  if (← get).members.size ≥ maxGroupMembers then throw (.kafka .groupMaxSizeReached)
  ensureRebalance now
  request.register now assigned

/-- The member of any other request is already there. -/
def registerAgain (now : Nat) : Section GroupState Halt (String × Nat) := do
  ensureRebalance now
  let _ ← expect (← get).members[request.memberId]? "member existence checked"
  request.register now request.memberId

/-- The checks of a request against the group. -/
def validateFor (state : GroupState) : Except CoordinatorError Unit := do
  rejectIf (request.memberId ≠ "" ∧ request.memberId ∉ state.members) (.kafka .unknownMemberId)
  rejectIf (state.protocolType ≠ request.protocolType ∨
    protocolsCompatible state request.memberId request.protocols = false)
    (.kafka .inconsistentGroupProtocol)
  validateGroupProtocolBudget state request.memberId request.protocols

/-- The first section of `join`: the member's id and the rebalance it has joined. `assigned` is
the id to give to a new member. -/
def enter (now : Nat) (assigned : String) :
    Section (Option GroupState) Halt (String × Nat) := do
  match ← get with
  | none =>
    -- a group begins with its first member
    if request.memberId = "" then
      set (some (request.found now assigned))
      return (assigned, 1)
    else throw (.kafka .unknownMemberId)
  | some state => do
    -- the request is checked before the group is changed
    checked (request.validateFor state)
    Section.within state
      (if request.memberId = "" then request.registerNew now assigned else request.registerAgain now)

end JoinRequest

/-- One round of the loop of `join`: the outcome, if there is one. -/
def awaitOutcome (assignedMemberId : String) (targetRebalanceId : Nat) :
    Section (Option GroupState) Halt (Option JoinOutcome) := do
  let state ← checked (okOr (← get) (.kafka .unknownMemberId))
  -- the rebalance that was joined has been superseded
  if state.rebalanceId ≠ targetRebalanceId then throw (.kafka .rebalanceInProgress)
  let member ← checked (okOr state.members[assignedMemberId]? (.kafka .unknownMemberId))
  return member.joinResult

/-! ## `sync` -/

/-- What one round of the loop of `sync` comes to. -/
inductive SyncRound where
  /-- The group is gone. -/
  | gone
  | assigned (assignment : List UInt8)
  | waiting
  deriving DecidableEq, Repr

/-- What the leader's submission leaves of a member, with the assignment it gives to it. -/
def MemberState.installed (member : MemberState) (now : Nat) :
    Option (List UInt8) → MemberState
  | none => member
  | some assignment =>
    { member with assignment := some assignment, deadline := now + member.sessionTimeout }

/-- The member has been heard of. -/
def MemberState.touched (member : MemberState) (now : Nat) : MemberState :=
  { member with deadline := now + member.sessionTimeout }

/-- The leader's assignments are installed. -/
def GroupState.install (state : GroupState) (now : Nat)
    (installed : ExtTreeMap String (List UInt8) compare) : GroupState :=
  { state with
    phase := .stable
    members := state.members.map fun id member => member.installed now installed[id]? }

/-- The member has been heard of. -/
def GroupState.touch (state : GroupState) (now : Nat) (memberId : String) : GroupState :=
  { state with
    members := state.members.modify memberId (·.touched now) }

/-- The `match` on the phase in the first round of `sync`. -/
def takeAssignments (now : Nat) (memberId : String) (assignments : List SyncAssignment) :
    Section GroupState Halt Unit := do
  let state ← get
  let isLeader := state.leaderId = memberId
  match state.phase with
  | .joining => throw (.panicked "joining phase returned above")
  | .awaitingSync =>
    -- the leader's assignments are complete, and only the leader has any
    if isLeader then
      let installed ← checked (exactAssignments state assignments)
      let _ ← installed.keys.mapM fun id =>
        expect state.members[id]? "validated assignment member"
      set (state.install now installed)
    else if assignments ≠ [] then throw (.kafka .invalidRequest)
  | .stable =>
    -- the leader may submit again what it has submitted
    if isLeader ∧ assignments ≠ [] then
      let proposed ← checked (exactAssignments state assignments)
      if proposed.toList.any (fun p =>
          (state.members[p.1]?).bind (·.assignment) ≠ some p.2) then
        throw (.kafka .invalidRequest)
    else if assignments ≠ [] then throw (.kafka .invalidRequest)

/-- The submission of the first round of `sync`. -/
def submit (now : Nat) (memberId : String) (assignments : List SyncAssignment) :
    Section GroupState Halt Unit := do
  takeAssignments now memberId assignments
  let _ ← expect (← get).members[memberId]? "active group validated member"
  modify (·.touch now memberId)

/-- The member's assignment, once the group has assignments. -/
def assignmentOf (memberId : String) : Section GroupState Halt SyncRound := do
  let state ← get
  let member ← expect state.members[memberId]? "active group validated member"
  -- before the leader's submission there is nothing to hand out
  if state.phase = .stable then
    let assignment ← checked (okOr member.assignment (.kafka .rebalanceInProgress))
    return .assigned assignment
  return .waiting

/-- One round of the loop of `sync` on the group. -/
def syncMember (now : Nat) (memberId : String) (assignments : List SyncAssignment)
    (submitted : Bool) : Section GroupState Halt SyncRound := do
  if (← get).phase = .joining then throw (.kafka .rebalanceInProgress)
  if !submitted then submit now memberId assignments
  assignmentOf memberId

/-- One round of the loop of `sync`. -/
def syncRound (now : Nat) (generationId : Int) (memberId : String)
    (assignments : List SyncAssignment) (submitted : Bool) :
    Section (Option GroupState) Halt SyncRound := do
  if (← get).isNone then return .gone
  let state ← checked (activeGroup (← get) generationId memberId)
  Section.within state (syncMember now memberId assignments submitted)

/-! ## Sections of the operations -/

/-- What an operation replies to its client. -/
inductive Reply where
  | joined (outcome : JoinOutcome)
  | synced (assignment : List UInt8)
  | done
  deriving DecidableEq, Repr

/-- The sections of the operations, with what they know when they take the lock. -/
inductive Stage where
  /-- `join` applies the request. -/
  | enter (request : JoinRequest)
  /-- `join` lets the group advance before it waits. -/
  | settle (memberId : String) (targetRebalanceId : Nat)
  /-- `join` waits for the outcome. -/
  | await (memberId : String) (targetRebalanceId : Nat)
  | sync (generationId : Int) (memberId : String) (assignments : List SyncAssignment)
    (submitted : Bool)
  | heartbeat (generationId : Int) (memberId : String)
  | leave (memberId : String)
  | commit (generationId : Int) (memberId : String) (commits : List OffsetCommit)
  deriving DecidableEq, Repr

/-- What an operation goes on with after a section. -/
inductive Next where
  /-- It takes the lock again. -/
  | section (stage : Stage)
  /-- It goes to the store, with the lock held. -/
  | store (commits : List OffsetCommit)
  /-- It replies; the slot may be reclaimed if the group is gone. -/
  | reply (result : Except CoordinatorError Reply) (reclaim : Bool)
  deriving DecidableEq, Repr

/-- What a round of `sync` goes on with. -/
def SyncRound.next (round : SyncRound) (generationId : Int) (memberId : String)
    (assignments : List SyncAssignment) : Next :=
  match round with
  | .gone => .reply (.error (.kafka .unknownMemberId)) true
  | .assigned assignment => .reply (.ok (.synced assignment)) false
  | .waiting => .section (.sync generationId memberId assignments true)

def heartbeatRound (now : Nat) (generationId : Int) (memberId : String) :
    Section (Option GroupState) Halt Next := do
  match activeGroup (← get) generationId memberId with
  -- a group that is gone may leave its slot
  | .error e => return .reply (.error e) (← get).isNone
  | .ok state => do
    let member ← expect state.members[memberId]? "active group validated member"
    set (some (state.touch now memberId))
    -- the heartbeat counts although the member has to rejoin
    if state.phase ≠ .stable ∨ member.assignment = none then
      return .reply (.error (.kafka .rebalanceInProgress)) false
    return .reply (.ok .done) false

/-- A member that leaves is not the leader any more. -/
def replaceLeader (memberId : String) : Section GroupState Halt Unit := do
  let state ← get
  if state.leaderId = memberId then
    let first ← expect state.members.minKey? "nonempty group"
    set { state with leaderId := first }

/-- The members that are left complete their rebalance, or start one. -/
def goOn (now : Nat) : Section GroupState Halt Unit := do
  let state ← get
  -- the one who left may have been the last to be waited for
  if state.phase = .joining then
    if allJoined state.members state.rebalanceId then finalizeRebalance now
  else startRebalance now

def leaveRound (now : Nat) (memberId : String) : Section (Option GroupState) Halt Next := do
  match ← get with
  | none => return .reply (.error (.kafka .unknownMemberId)) true
  | some state =>
    -- a member that is not there has nothing to leave
    if memberId ∉ state.members then
      return .reply (.error (.kafka .unknownMemberId)) false
    let members := state.members.erase memberId
    -- the last member takes the group with it
    if members.isEmpty then
      set (none : Option GroupState)
      return .reply (.ok .done) true
    Section.within { state with members } do
      replaceLeader memberId
      goOn now
    return .reply (.ok .done) false

/-- The part of `commit` before the store is touched. -/
def commitRound (generationId : Int) (memberId : String) (commits : List OffsetCommit) :
    Section (Option GroupState) Halt Next := do
  match activeGroup (← get) generationId memberId with
  | .error e => return .reply (.error e) (← get).isNone
  | .ok state => do
    let member ← expect state.members[memberId]? "active group validated member"
    if state.phase ≠ .stable ∨ member.assignment = none then
      return .reply (.error (.kafka .rebalanceInProgress)) false
    -- nothing is written for an empty commit
    if commits = [] then return .reply (.ok .done) false
    return .store commits

namespace Stage

/-- A section after its `advance_group`. `assigned` is the id that a new member is given. -/
def body (now : Nat) (assigned : String) : Stage → Section (Option GroupState) Halt Next
  | enter request => do
    let (id, targetRebalanceId) ← request.enter now assigned
    return .section (settle id targetRebalanceId)
  | settle id targetRebalanceId => return .section (await id targetRebalanceId)
  | await id targetRebalanceId => do
    match ← awaitOutcome id targetRebalanceId with
    | some outcome => return .reply (.ok (.joined outcome)) false
    | none => return .section (await id targetRebalanceId)
  | sync generationId memberId assignments submitted => do
    let round ← syncRound now generationId memberId assignments submitted
    return round.next generationId memberId assignments
  | heartbeat generationId memberId => heartbeatRound now generationId memberId
  | leave memberId => leaveRound now memberId
  | commit generationId memberId commits => commitRound generationId memberId commits

/-- A section, with this reading of the clock. -/
def run (now : Nat) (assigned : String) (stage : Stage) :
    Section (Option GroupState) Halt Next := do
  -- every section lets the group advance before it does anything else
  let _ ← advanceGroup now
  stage.body now assigned

end Stage

end Walstream.Group

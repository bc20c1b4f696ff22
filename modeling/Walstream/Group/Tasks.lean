import Mathlib.Logic.Function.Basic
import Walstream.Group.Coordinator

/-!
# The coordinator at work

`coordinator.rs`: any number of operations on any groups at the same time, one step of one of
them after the other. The map of the groups is behind a lock, and the state of each slot is
behind another one. An operation looks for its slot, takes the lock of the slot for each of
its sections, may reclaim the slot, and returns. Reading the clock, taking a lock and running
a section are separate steps of an operation; a waiter may wake up at any time.

- `Moves`: one step of one operation.
- `Step`: one step of the system: the clock goes on, a client calls, or an operation moves.
- `Run`: runs of the system, with a ledger of when members were heard of and when rebalances
  were started.

The store of committed offsets is a parameter: what `commit` does with it does not touch the
groups, but it takes as long as it likes, with the lock of the slot held.
-/

namespace Walstream.Group

open Interaction Log
open Std (ExtTreeMap)

/-! ## Operations -/

/-- The store of committed offsets, as far as `commit` sees it: a commit is begun, and then
takes steps on the content of the store until it has a result. -/
structure OffsetStore where
  Content : Type
  Work : Type
  commit : String → List OffsetCommit → Work
  Step : Content → Work → Content → Work ⊕ Except GroupError Unit → Prop

/-- The operations that clients call. -/
inductive Call where
  | join (group : String) (request : JoinRequest)
  | sync (group : String) (generationId : Int) (memberId : String)
    (assignments : List SyncAssignment)
  | heartbeat (group : String) (generationId : Int) (memberId : String)
  | leave (group : String) (memberId : String)
  | commit (group : String) (generationId : Int) (memberId : String) (commits : List OffsetCommit)
  deriving DecidableEq, Repr

namespace Call

def group : Call → String
  | join group _ => group
  | sync group _ _ _ => group
  | heartbeat group _ _ => group
  | leave group _ => group
  | commit group _ _ _ => group

/-- The checks of an operation before it looks for the group. -/
def validate : Call → Except CoordinatorError Unit
  | join group request => request.validate group
  | sync group _ memberId assignments => do
    validateGroupId group
    validateMemberId memberId false
    validateAssignments assignments
  | heartbeat group _ memberId => do
    validateGroupId group
    validateMemberId memberId false
  | leave group memberId => do
    validateGroupId group
    validateMemberId memberId false
  | commit group _ memberId _ => do
    validateGroupId group
    validateMemberId memberId false

/-- The first section of an operation. -/
def stage : Call → Stage
  | join _ request => .enter request
  | sync _ generationId memberId assignments => .sync generationId memberId assignments false
  | heartbeat _ generationId memberId => .heartbeat generationId memberId
  | leave _ memberId => .leave memberId
  | commit _ generationId memberId commits => .commit generationId memberId commits

/-- The operation is a join without a member id, which creates the slot of its group. -/
def isFirstJoin : Call → Bool
  | join _ request => request.memberId == ""
  | _ => false

end Call

/-- How an operation ends. -/
abbrev Outcome := Except Halt Reply

/-- Where an operation is. -/
inductive Point (Work : Type) where
  | called
  /-- It holds the lock of the map, and has these groups left to visit. -/
  | sweeping (now : Nat) (left : List String)
  /-- A join that holds a slot, and has not read the clock yet. -/
  | found (slot : Nat)
  /-- It is about to take the lock of the slot. A join has read the clock before. -/
  | locking (slot : Nat) (reading : Option Nat) (stage : Stage)
  /-- It holds the lock of the slot. -/
  | running (slot : Nat) (reading : Option Nat) (stage : Stage)
  /-- A commit at the store, with the lock of the slot held. -/
  | storing (slot : Nat) (work : Work)
  /-- It is about to look whether the slot can be removed from the map. -/
  | reclaiming (slot : Nat) (outcome : Outcome)
  /-- It holds the slot only to drop it. -/
  | dropping (slot : Nat) (outcome : Outcome)
  | returned (outcome : Outcome)

structure Task (Work : Type) where
  call : Call
  /-- The member id that this call has generated. -/
  generated : Option String
  point : Point Work

/-! ## The shared state -/

/-- `GroupSlotState` behind its `Arc`, and the group that the slot was created for. -/
structure Slot where
  group : String
  state : Option GroupState
  locked : Bool
  /-- `Arc::strong_count`. -/
  refs : Nat

/-- What the operations share. Slots are numbered in the order of their creation. -/
structure Shared (Content : Type) where
  clock : Nat
  groups : ExtTreeMap String Nat compare
  mapLocked : Bool
  slots : Nat → Slot
  fresh : Nat
  /-- The empty id and the ids that were given to members. -/
  issued : List String
  content : Content

namespace Shared

variable {Content : Type}

def withSlot (w : Shared Content) (slot : Nat) (x : Slot) : Shared Content :=
  { w with slots := Function.update w.slots slot x }

section WithSlot

variable (w : Shared Content) (slot k : Nat) (x : Slot)

@[simp] theorem withSlot_slots :
    (w.withSlot slot x).slots k = if k = slot then x else w.slots k := Function.update_apply ..

@[simp] theorem withSlot_clock : (w.withSlot slot x).clock = w.clock := rfl

@[simp] theorem withSlot_groups : (w.withSlot slot x).groups = w.groups := rfl

@[simp] theorem withSlot_mapLocked : (w.withSlot slot x).mapLocked = w.mapLocked := rfl

@[simp] theorem withSlot_fresh : (w.withSlot slot x).fresh = w.fresh := rfl

@[simp] theorem withSlot_issued : (w.withSlot slot x).issued = w.issued := rfl

end WithSlot

/-- One more reference to the slot. -/
def retain (w : Shared Content) (slot : Nat) : Shared Content :=
  w.withSlot slot { w.slots slot with refs := (w.slots slot).refs + 1 }

/-- One reference less. -/
def release (w : Shared Content) (slot : Nat) : Shared Content :=
  w.withSlot slot { w.slots slot with refs := (w.slots slot).refs - 1 }

def lock (w : Shared Content) (slot : Nat) : Shared Content :=
  w.withSlot slot { w.slots slot with locked := true }

def unlock (w : Shared Content) (slot : Nat) : Shared Content :=
  w.withSlot slot { w.slots slot with locked := false }

/-- The slot leaves the map, which held one of its references. -/
def remove (w : Shared Content) (name : String) (slot : Nat) : Shared Content :=
  { w.release slot with groups := w.groups.erase name }

/-- A new slot, held by the map and by the operation that creates it. -/
def create (w : Shared Content) (name : String) : Shared Content :=
  { w.withSlot w.fresh ⟨name, none, false, 2⟩ with
    groups := w.groups.insert name w.fresh
    fresh := w.fresh + 1
    mapLocked := false }

/-- The slot after a section. -/
def settled (w : Shared Content) (slot : Nat) (state : Option GroupState) (locked : Bool)
    (assigned : String) : Shared Content :=
  { w.withSlot slot { w.slots slot with state, locked } with issued := assigned :: w.issued }

end Shared

/-- A group that is gone, and that nobody else can reach. -/
def Slot.reclaimable (x : Slot) : Bool := x.refs == 2 && !x.locked && x.state.isNone

structure System (store : OffsetStore) where
  shared : Shared store.Content
  tasks : List (Task store.Work)

/-- Nobody has called yet. -/
def System.init {store : OffsetStore} (clock : Nat) (content : store.Content) : System store where
  shared :=
    { clock, groups := ∅, mapLocked := false, slots := fun _ => ⟨"", none, false, 0⟩, fresh := 0,
      issued := [""], content }
  tasks := []

/-! ## Steps -/

/-- Whether the lock of the slot is still held after a section. -/
def holdsLock : Except Halt Next → Bool
  | .ok (.store _) => true
  | _ => false

/-- Where an operation goes on after a section. -/
def OffsetStore.resume (store : OffsetStore) (group : String) (slot : Nat) :
    Except Halt Next → Point store.Work
  | .ok (.section stage) => .locking slot none stage
  | .ok (.store commits) => .storing slot (store.commit group commits)
  | .ok (.reply result true) => .reclaiming slot (result.mapError .error)
  | .ok (.reply result false) => .dropping slot (result.mapError .error)
  | .error halt => .dropping slot (.error halt)

/-- `result.map_err(CoordinatorError::Storage)`. -/
def committed : Except GroupError Unit → Outcome
  | .ok () => .ok .done
  | .error e => .error (.error (.storage e))

/-- A section that gives an id to a new member. -/
def Stage.generates : Stage → Bool
  | enter request => request.memberId == ""
  | _ => false

/-- What a step tells about the groups. -/
inductive Event where
  | quiet
  /-- A section ran on the slot, with this reading of the clock, for a call that had generated
  this id. -/
  | ran (slot : Nat) (now : Nat) (assigned : String) (generated : Option String) (stage : Stage)
  /-- The sweep let the slot advance, with this reading of the clock. -/
  | swept (slot : Nat) (now : Nat)

/-- One step of one operation. -/
inductive Moves (store : OffsetStore) : Shared store.Content → Task store.Work → Event →
    Shared store.Content → Task store.Work → Prop where
  /-- The request is not valid. -/
  | refuse {w : Shared store.Content} {t : Task store.Work} (e : CoordinatorError)
      (here : t.point = .called) (why : t.call.validate = .error e) :
      Moves store w t .quiet w { t with point := .returned (.error (.error e)) }
  /-- `existing_group_slot`, `join_group_slot`: the group has a slot. -/
  | find {w : Shared store.Content} {t : Task store.Work} (slot : Nat)
      (here : t.point = .called) (valid : t.call.validate = .ok ()) (free : w.mapLocked = false)
      (there : w.groups[t.call.group]? = some slot) :
      Moves store w t .quiet (w.retain slot)
        { t with point := match t.call with
          | .join _ _ => .found slot
          | call => .locking slot none call.stage }
  /-- The group has no slot, and the operation does not create one. -/
  | absent {w : Shared store.Content} {t : Task store.Work}
      (here : t.point = .called) (valid : t.call.validate = .ok ()) (free : w.mapLocked = false)
      (absent : w.groups[t.call.group]? = none) (old : t.call.isFirstJoin = false) :
      Moves store w t .quiet w { t with point := .returned (.error (.kafka .unknownMemberId)) }
  /-- `sweep_reclaimable_slots` begins; the order of the groups is not specified. -/
  | sweep {w : Shared store.Content} {t : Task store.Work} (left : List String)
      (here : t.point = .called) (valid : t.call.validate = .ok ()) (free : w.mapLocked = false)
      (absent : w.groups[t.call.group]? = none) (first : t.call.isFirstJoin = true)
      (all : left.Perm w.groups.keys) :
      Moves store w t .quiet { w with mapLocked := true } { t with point := .sweeping w.clock left }
  /-- The slot is in use. -/
  | skip {w : Shared store.Content} {t : Task store.Work} (now slot : Nat) (name : String)
      (left : List String) (here : t.point = .sweeping now (name :: left))
      (there : w.groups[name]? = some slot)
      (used : (w.slots slot).refs ≠ 1 ∨ (w.slots slot).locked = true) :
      Moves store w t .quiet w { t with point := .sweeping now left }
  /-- The slot has advanced, and stays. -/
  | keep {w : Shared store.Content} {t : Task store.Work} (now slot : Nat) (name : String)
      (left : List String) (r : Except CoordinatorError Bool) (state : Option GroupState)
      (here : t.point = .sweeping now (name :: left)) (there : w.groups[name]? = some slot)
      (unused : (w.slots slot).refs = 1) (unlocked : (w.slots slot).locked = false)
      (exec : (advanceGroup now).exec (w.slots slot).state = (r.mapError .error, state))
      (stays : r.toOption.isNone ∨ state.isSome) :
      Moves store w t (.swept slot now) (w.withSlot slot { w.slots slot with state })
        { t with point := .sweeping now left }
  /-- The slot has advanced, and its group is gone. -/
  | discard {w : Shared store.Content} {t : Task store.Work} (now slot : Nat) (name : String)
      (left : List String) (changed : Bool)
      (here : t.point = .sweeping now (name :: left)) (there : w.groups[name]? = some slot)
      (unused : (w.slots slot).refs = 1) (unlocked : (w.slots slot).locked = false)
      (exec : (advanceGroup now).exec (w.slots slot).state = (.ok changed, none)) :
      Moves store w t (.swept slot now)
        ((w.withSlot slot { w.slots slot with state := none }).remove name slot)
        { t with point := .sweeping now left }
  /-- The sweep panics. -/
  | crash {w : Shared store.Content} {t : Task store.Work} (now slot : Nat) (name text : String)
      (left : List String) (state : Option GroupState)
      (here : t.point = .sweeping now (name :: left)) (there : w.groups[name]? = some slot)
      (unused : (w.slots slot).refs = 1) (unlocked : (w.slots slot).locked = false)
      (exec : (advanceGroup now).exec (w.slots slot).state = (.error (.panicked text), state)) :
      Moves store w t (.swept slot now)
        { w.withSlot slot { w.slots slot with state } with mapLocked := false }
        { t with point := .returned (.error (.panicked text)) }
  /-- There are too many groups. -/
  | full {w : Shared store.Content} {t : Task store.Work} (now : Nat)
      (here : t.point = .sweeping now []) (why : maxGroupSlots ≤ w.groups.size) :
      Moves store w t .quiet { w with mapLocked := false }
        { t with point := .returned (.error (.kafka .groupMaxSizeReached)) }
  /-- The group gets a slot. -/
  | create {w : Shared store.Content} {t : Task store.Work} (now : Nat)
      (here : t.point = .sweeping now []) (room : w.groups.size < maxGroupSlots) :
      Moves store w t .quiet (w.create t.call.group) { t with point := .found w.fresh }
  /-- A join reads the clock. -/
  | read {w : Shared store.Content} {t : Task store.Work} (slot : Nat)
      (here : t.point = .found slot) :
      Moves store w t .quiet w { t with point := .locking slot (some w.clock) t.call.stage }
  /-- An operation takes the lock of the slot. -/
  | lock {w : Shared store.Content} {t : Task store.Work} (slot : Nat) (reading : Option Nat)
      (stage : Stage) (here : t.point = .locking slot reading stage)
      (unlocked : (w.slots slot).locked = false) :
      Moves store w t .quiet (w.lock slot) { t with point := .running slot reading stage }
  /-- An operation runs its section, with a reading of the clock now unless it has one. -/
  | run {w : Shared store.Content} {t : Task store.Work} (slot : Nat) (reading : Option Nat)
      (stage : Stage) (assigned : String) (r : Except Halt Next) (state : Option GroupState)
      (here : t.point = .running slot reading stage) (new : assigned ∉ w.issued)
      (exec : (stage.run (reading.getD w.clock) assigned).exec (w.slots slot).state = (r, state)) :
      Moves store w t (.ran slot (reading.getD w.clock) assigned t.generated stage)
        (w.settled slot state (holdsLock r) assigned)
        { t with
          generated := if stage.generates then some assigned else t.generated
          point := store.resume t.call.group slot r }
  /-- A commit takes a step at the store. -/
  | work {w : Shared store.Content} {t : Task store.Work} (slot : Nat) (work work' : store.Work)
      (content : store.Content) (here : t.point = .storing slot work)
      (step : store.Step w.content work content (.inl work')) :
      Moves store w t .quiet { w with content } { t with point := .storing slot work' }
  /-- A commit is done with the store. -/
  | stored {w : Shared store.Content} {t : Task store.Work} (slot : Nat) (work : store.Work)
      (content : store.Content) (result : Except GroupError Unit)
      (here : t.point = .storing slot work)
      (step : store.Step w.content work content (.inr result)) :
      Moves store w t .quiet { w.unlock slot with content }
        { t with point := .dropping slot (committed result) }
  /-- `reclaim_slot`: the slot is removed. -/
  | reclaim {w : Shared store.Content} {t : Task store.Work} (slot : Nat) (outcome : Outcome)
      (here : t.point = .reclaiming slot outcome) (free : w.mapLocked = false)
      (same : w.groups[t.call.group]? = some slot)
      (idle : (w.slots slot).reclaimable = true) :
      Moves store w t .quiet (w.remove t.call.group slot) { t with point := .dropping slot outcome }
  /-- `reclaim_slot`: the slot is not the one in the map, or in use. -/
  | leaveSlot {w : Shared store.Content} {t : Task store.Work} (slot : Nat) (outcome : Outcome)
      (here : t.point = .reclaiming slot outcome) (free : w.mapLocked = false)
      (why : w.groups[t.call.group]? ≠ some slot ∨ (w.slots slot).reclaimable = false) :
      Moves store w t .quiet w { t with point := .dropping slot outcome }
  /-- An operation returns, and drops its slot. -/
  | drop {w : Shared store.Content} {t : Task store.Work} (slot : Nat) (outcome : Outcome)
      (here : t.point = .dropping slot outcome) :
      Moves store w t .quiet (w.release slot) { t with point := .returned outcome }

/-- One step of the system. -/
inductive Step (store : OffsetStore) : System store → Event → System store → Prop where
  /-- Time goes on. -/
  | tick {w : System store} (clock : Nat) (later : w.shared.clock ≤ clock) :
      Step store w .quiet { w with shared := { w.shared with clock } }
  /-- A client calls. -/
  | call {w : System store} (call : Call) :
      Step store w .quiet { w with tasks := ⟨call, none, .called⟩ :: w.tasks }
  /-- An operation moves. -/
  | move {w w' : Shared store.Content} {e : Event} {t t' : Task store.Work}
      (before after : List (Task store.Work)) (moves : Moves store w t e w' t') :
      Step store ⟨w, before ++ t :: after⟩ e ⟨w', before ++ t' :: after⟩

/-! ### What a step does to the groups -/

section Effects

variable {store : OffsetStore} {w w' : Shared store.Content} {t t' : Task store.Work}

theorem Moves.clock_eq {e : Event} (h : Moves store w t e w' t') : w'.clock = w.clock := by
  cases h <;> rfl

/-- Only sections give ids to members. -/
theorem Moves.issued_eq {e : Event} (h : Moves store w t e w' t') : w'.issued =
    match e with
    | .ran _ _ assigned _ _ => assigned :: w.issued
    | _ => w.issued := by
  cases h <;> rfl

/-- A quiet move keeps the groups; a slot that is created has none. -/
theorem Moves.quiet_state (h : Moves store w t .quiet w' t') (s : Nat) :
    (w'.slots s).state = (w.slots s).state ∨ (w'.slots s).state = none := by
  cases h with
  | refuse e here why => exact .inl rfl
  | find slot here valid free there =>
    by_cases hs : s = slot <;> simp [Shared.retain, hs]
  | absent here valid free absent old => exact .inl rfl
  | sweep left here valid free absent first all => exact .inl rfl
  | skip now slot name left here there used => exact .inl rfl
  | full now here why => exact .inl rfl
  | create now here room =>
    by_cases hs : s = w.fresh <;> simp [Shared.create, Shared.withSlot, hs]
  | read slot here => exact .inl rfl
  | lock slot reading stage here unlocked =>
    by_cases hs : s = slot <;> simp [Shared.lock, hs]
  | work slot work work' content here step => exact .inl rfl
  | stored slot work content result here step =>
    by_cases hs : s = slot <;> simp [Shared.unlock, hs]
  | reclaim slot outcome here free same idle =>
    by_cases hs : s = slot <;> simp [Shared.remove, Shared.release, hs]
  | leaveSlot slot outcome here free why => exact .inl rfl
  | drop slot outcome here =>
    by_cases hs : s = slot <;> simp [Shared.release, hs]

/-- A section changes the group of its slot. -/
theorem Moves.ran_state {slot now : Nat} {assigned : String} {generated : Option String}
    {stage : Stage} (h : Moves store w t (.ran slot now assigned generated stage) w' t') (s : Nat) :
    (w'.slots s).state = if s = slot
      then ((stage.run now assigned).exec (w.slots slot).state).2 else (w.slots s).state := by
  cases h with
  | run slot reading stage assigned r state here new exec =>
    rw [exec]
    by_cases hs : s = slot <;> simp [Shared.settled, hs]

/-- The sweep lets the group of a slot advance. -/
theorem Moves.swept_state {slot now : Nat} (h : Moves store w t (.swept slot now) w' t') (s : Nat) :
    (w'.slots s).state = if s = slot
      then ((advanceGroup now).exec (w.slots slot).state).2 else (w.slots s).state := by
  cases h with
  | keep now slot name left r state here there unused unlocked exec stays =>
    rw [exec]
    by_cases hs : s = slot <;> simp [hs]
  | discard now slot name left changed here there unused unlocked exec =>
    rw [exec]
    by_cases hs : s = slot <;> simp [Shared.remove, Shared.release, hs]
  | crash now slot name text left state here there unused unlocked exec =>
    rw [exec]
    by_cases hs : s = slot <;> simp [hs]

end Effects

/-! ## Runs -/

/-- When the members of the group of a slot were last heard of, and when its rebalance was
started. -/
structure Record where
  active : String → Nat
  started : Nat

/-- A rebalance was started between two states of a slot. -/
def begins : Option GroupState → Option GroupState → Bool
  | _, none => false
  | none, some _ => true
  | some g, some k => g.rebalanceId != k.rebalanceId

/-- The member that was heard of in a section: a join, the submission of a sync or a heartbeat
took effect. -/
def Stage.heard (stage : Stage) (s : Option GroupState) (r : Except Halt Next) : Option String :=
  match stage, r with
  | enter _, .ok (.section (settle id _)) => some id
  | sync _ id _ false, .ok _ => if s.isSome then some id else none
  | heartbeat generationId id, .ok _ =>
    if (activeGroup s generationId id).toOption.isSome then some id else none
  | _, _ => none

namespace Record

/-- The slot went from one state to another at this time. -/
def turn (record : Record) (clock : Nat) (s s' : Option GroupState) : Record :=
  if begins s s' then { record with started := clock } else record

/-- The member was heard of at this time. -/
def hear (record : Record) (clock : Nat) : Option String → Record
  | none => record
  | some id => { record with active := Function.update record.active id clock }

/-- The record after `advance_group` with this reading of the clock. -/
def swept (record : Record) (clock now : Nat) (s : Option GroupState) : Record :=
  record.turn clock s ((advanceGroup now).exec s).2

/-- The record after a section with this reading of the clock. -/
def ran (record : Record) (clock now : Nat) (assigned : String) (stage : Stage)
    (s : Option GroupState) : Record :=
  let s₁ := ((advanceGroup now).exec s).2
  let result := (stage.run now assigned).exec s
  ((record.swept clock now s).turn clock s₁ result.2).hear clock (stage.heard s₁ result.1)

end Record

/-- The records of the slots. -/
abbrev Ledger := Nat → Record

/-- The ledger after a step from `w`. -/
def Ledger.next {Content : Type} (l : Ledger) (w : Shared Content) : Event → Ledger
  | .quiet => l
  | .ran slot now assigned _ stage =>
    Function.update l slot ((l slot).ran w.clock now assigned stage (w.slots slot).state)
  | .swept slot now => Function.update l slot ((l slot).swept w.clock now (w.slots slot).state)

/-- The runs from an empty coordinator all of whose steps satisfy `P`. -/
inductive Run (store : OffsetStore) (P : System store → Ledger → Event → Prop) :
    System store → Ledger → Prop where
  | init (clock : Nat) (content : store.Content) (l : Ledger) :
      Run store P (System.init clock content) l
  | step {w w' : System store} {l : Ledger} {e : Event} (run : Run store P w l)
      (meets : P w l e) (step : Step store w e w') : Run store P w' (l.next w.shared e)

/-- A state of the coordinator that some run reaches. -/
def Reachable {store : OffsetStore} (w : System store) : Prop :=
  ∃ l, Run store (fun _ _ _ => True) w l

end Walstream.Group

import Walstream.Group.Coordinator

/-!
# What a rebalance does to a group

The invariant of a group (`GroupState.Valid`), and what `ensure_leader`, `start_rebalance`,
`finalize_rebalance` and `advance_group` make of a group that has it. `Advanced` lists
everything `advance_group` can come to.
-/

namespace Walstream.Group

open Interaction Log
open Std (ExtTreeMap)

/-! ## The invariant -/

/-- The bytes that the group retains of the protocols of a member. -/
def protocolWeight (protocols : List JoinProtocol) : Nat :=
  (protocols.map fun protocol => protocol.name.utf8ByteSize + protocol.metadata.length).sum

/-- The bytes that the group retains of the assignment of a member. -/
def assignmentWeight (assignment : Option (List UInt8)) : Nat := (assignment.getD []).length

/-- What the leader is told of the members. -/
def GroupState.roster (g : GroupState) (protocolName : String) : List JoinMember :=
  g.members.toList.map fun p =>
    ⟨p.1, ((p.2.protocols.find? fun protocol => protocol.name == protocolName).map
      (·.metadata)).getD []⟩

/-- The part of the invariant that does not depend on the phase. -/
structure GroupState.Sound (g : GroupState) : Prop where
  leader : g.leaderId ∈ g.members
  unnamed : "" ∉ g.members
  size : g.members.size ≤ maxGroupMembers
  protocolBytes : g.members.weight (protocolWeight ·.protocols) ≤ maxGroupProtocolBytes
  assignmentBytes : g.members.weight (assignmentWeight ·.assignment) ≤ maxGroupAssignmentBytes
  common : ∃ name, ∀ (id : String) m, g.members[id]? = some m → offers m.protocols name = true
  generation_nonneg : 0 ≤ g.generationId
  generation_le : g.generationId ≤ i32Max
  joined_le : ∀ (id : String) m, g.members[id]? = some m → m.joinedRebalance ≤ g.rebalanceId
  rejoin_pos : ∀ (id : String) m, g.members[id]? = some m → 0 < m.rebalanceTimeout
  rejoin_le : ∀ (id : String) m, g.members[id]? = some m →
    m.rebalanceTimeout ≤ fromMillis maxSessionTimeoutMs

/-- Every member has been told the outcome of the current generation. -/
structure GroupState.Announced (g : GroupState) (protocolName : String) : Prop where
  name : g.protocolName = some protocolName
  offered : ∀ (id : String) m, g.members[id]? = some m → offers m.protocols protocolName = true
  joined : ∀ (id : String) m, g.members[id]? = some m → m.joinedRebalance = g.rebalanceId
  result : ∀ (id : String) m, g.members[id]? = some m → m.joinResult =
    some (outcomeOf g.generationId protocolName g.leaderId (g.roster protocolName) id)

/-- The invariant of a group. -/
structure GroupState.Valid (g : GroupState) : Prop extends GroupState.Sound g where
  rebalance : (g.rebalanceId : Int) = g.generationId + if g.phase = .joining then 1 else 0
  joining : g.phase = .joining → g.protocolName = none ∧
    ∀ (id : String) m, g.members[id]? = some m → m.assignment = none ∧ m.joinResult = none
  announced : g.phase ≠ .joining → ∃ name, g.Announced name
  awaiting : g.phase = .awaitingSync →
    ∀ (id : String) m, g.members[id]? = some m → m.assignment = none
  stable : g.phase = .stable →
    ∀ (id : String) m, g.members[id]? = some m → ∃ assignment, m.assignment = some assignment

variable {g : GroupState} {now : Nat}

/-- Rebalance numbers do not run out before generation numbers do. -/
theorem GroupState.Valid.rebalance_lt (h : g.Valid) : g.rebalanceId + 1 ≤ u64Max := by
  have hle := h.generation_le
  have hr := h.rebalance
  unfold i32Max at hle
  unfold u64Max
  split at hr
  · omega
  · omega

/-- A change of the members that keeps who they are and what they offer. -/
structure GroupState.Mapped (g k : GroupState) (f : String → MemberState → MemberState) : Prop where
  members : k.members = g.members.map f
  leaderId : k.leaderId = g.leaderId
  protocols : ∀ id m, (f id m).protocols = m.protocols
  rebalanceTimeout : ∀ id m, (f id m).rebalanceTimeout = m.rebalanceTimeout
  joinedRebalance : ∀ id m, (f id m).joinedRebalance = m.joinedRebalance
  rebalanceId : g.rebalanceId ≤ k.rebalanceId

theorem GroupState.Mapped.getElem? {k : GroupState} {f : String → MemberState → MemberState}
    (hmap : g.Mapped k f) {id : String} {m : MemberState} :
    k.members[id]? = some m ↔ ∃ m', g.members[id]? = some m' ∧ f id m' = m := by
  rw [hmap.members, ExtTreeMap.getElem?_map, Option.map_eq_some_iff]

theorem GroupState.Sound.mapped {k : GroupState} {f : String → MemberState → MemberState}
    (h : g.Sound) (hmap : g.Mapped k f)
    (hbytes : k.members.weight (assignmentWeight ·.assignment) ≤ maxGroupAssignmentBytes)
    (hnonneg : 0 ≤ k.generationId) (hle : k.generationId ≤ i32Max) : k.Sound where
  leader := by
    rw [hmap.members, hmap.leaderId, ExtTreeMap.mem_map]
    exact h.leader
  -- ids stay, so that the named leader, the empty id and the size are those of before
  unnamed := by
    rw [hmap.members, ExtTreeMap.mem_map]
    exact h.unnamed
  size := by
    rw [hmap.members, ExtTreeMap.size_map]
    exact h.size
  -- the weight counts what `f` leaves alone
  protocolBytes := by
    rw [hmap.members]
    apply le_trans (ExtTreeMap.weight_map_le _) h.protocolBytes
    intro id m _
    exact (congrArg protocolWeight (hmap.protocols id m)).le
  assignmentBytes := hbytes
  -- the protocol common to all is still common
  common := by
    obtain ⟨name, hname⟩ := h.common
    refine ⟨name, fun id m hid => ?_⟩
    obtain ⟨m', hm', rfl⟩ := hmap.getElem?.mp hid
    rw [hmap.protocols]
    exact hname id m' hm'
  generation_nonneg := hnonneg
  generation_le := hle
  -- the rebalance number has not gone back
  joined_le := fun id m hid => by
    obtain ⟨m', hm', rfl⟩ := hmap.getElem?.mp hid
    rw [hmap.joinedRebalance]
    exact (h.joined_le id m' hm').trans hmap.rebalanceId
  rejoin_pos := fun id m hid => by
    obtain ⟨m', hm', rfl⟩ := hmap.getElem?.mp hid
    rw [hmap.rebalanceTimeout]
    exact h.rejoin_pos id m' hm'
  rejoin_le := fun id m hid => by
    obtain ⟨m', hm', rfl⟩ := hmap.getElem?.mp hid
    rw [hmap.rebalanceTimeout]
    exact h.rejoin_le id m' hm'

/-- No assignments, no bytes. -/
theorem weight_map_assignment {members : Members} {f : String → MemberState → MemberState}
    (h : ∀ id m, (f id m).assignment = none) {bound : Nat} :
    (members.map f).weight (assignmentWeight ·.assignment) ≤ bound := by
  apply (ExtTreeMap.weight_map_le (f := fun _ => 0) _).trans
  · unfold ExtTreeMap.weight
    simp
  · intro id m _
    simp [h, assignmentWeight]

/-! ## Leaders -/

namespace GroupState

/-- The group with a leader that is one of its members. -/
def elected (g : GroupState) : GroupState :=
  if g.leaderId ∈ g.members then g
  else { g with leaderId := g.members.minKey?.getD g.leaderId }

theorem elected_of_mem (h : g.leaderId ∈ g.members) : g.elected = g := if_pos h

@[simp] theorem elected_members : g.elected.members = g.members := by
  unfold elected
  split <;> rfl

@[simp] theorem elected_generationId : g.elected.generationId = g.generationId := by
  unfold elected
  split <;> rfl

@[simp] theorem elected_rebalanceId : g.elected.rebalanceId = g.rebalanceId := by
  unfold elected
  split <;> rfl

@[simp] theorem elected_phase : g.elected.phase = g.phase := by
  unfold elected
  split <;> rfl

@[simp] theorem elected_phaseDeadline : g.elected.phaseDeadline = g.phaseDeadline := by
  unfold elected
  split <;> rfl

@[simp] theorem elected_protocolName : g.elected.protocolName = g.protocolName := by
  unfold elected
  split <;> rfl

theorem elected_leader (h : ∃ id, id ∈ g.members) : g.elected.leaderId ∈ g.elected.members := by
  obtain ⟨first, hfirst, hmem⟩ := ExtTreeMap.exists_minKey? h
  unfold elected
  split
  · rename_i hleader
    exact hleader
  · simpa [hfirst] using hmem

theorem ensureLeader_exec (h : ∃ id, id ∈ g.members) :
    ensureLeader.exec g = (.ok (), g.elected) := by
  obtain ⟨first, hfirst, hmem⟩ := ExtTreeMap.exists_minKey? h
  unfold ensureLeader elected
  simp only [Section.exec_bind, Section.exec_get]
  split
  · rfl
  · simp [hfirst, expect, Section.orStop]

/-- The group with those members that satisfy `p`. -/
def keep (g : GroupState) (p : String → MemberState → Bool) : GroupState :=
  { g with members := g.members.filter p }.elected

section Keep

variable {p : String → MemberState → Bool}

@[simp] theorem keep_members : (g.keep p).members = g.members.filter p := by
  simp [keep]

@[simp] theorem keep_generationId : (g.keep p).generationId = g.generationId := by simp [keep]

@[simp] theorem keep_rebalanceId : (g.keep p).rebalanceId = g.rebalanceId := by simp [keep]

@[simp] theorem keep_phase : (g.keep p).phase = g.phase := by simp [keep]

@[simp] theorem keep_phaseDeadline : (g.keep p).phaseDeadline = g.phaseDeadline := by simp [keep]

@[simp] theorem keep_protocolName : (g.keep p).protocolName = g.protocolName := by simp [keep]

theorem keep_getElem? {id : String} {m : MemberState} :
    (g.keep p).members[id]? = some m ↔ g.members[id]? = some m ∧ p id m = true := by simp

/-- Nobody goes. -/
theorem keep_of_all (hleader : g.leaderId ∈ g.members)
    (h : ∀ (id : String) m, g.members[id]? = some m → p id m = true) : g.keep p = g := by
  have hmembers : g.members.filter p = g.members := by
    apply ExtTreeMap.ext_getElem?
    intro id
    rw [ExtTreeMap.getElem?_filter']
    cases hid : g.members[id]? with
    | none => rfl
    | some m => simp [h id m hid]
  unfold keep
  rw [hmembers]
  exact elected_of_mem hleader

theorem Sound.keep (h : g.Sound) (hsome : ∃ (id : String) (m : MemberState),
    g.members[id]? = some m ∧ p id m = true) : (g.keep p).Sound where
  -- somebody is left, so that a leader can be elected
  leader := by
    obtain ⟨id, m, hid, hp⟩ := hsome
    apply elected_leader
    exact ⟨id, ExtTreeMap.mem_iff_exists.mpr ⟨m, by simp [hid, hp]⟩⟩
  unnamed := by
    rw [ExtTreeMap.mem_iff_exists]
    intro ⟨m, hm⟩
    exact h.unnamed (ExtTreeMap.mem_iff_exists.mpr ⟨m, (keep_getElem?.mp hm).1⟩)
  size := by
    rw [keep_members]
    exact ExtTreeMap.size_filter_le_size.trans h.size
  protocolBytes := by
    rw [keep_members]
    exact (ExtTreeMap.weight_filter_le _).trans h.protocolBytes
  assignmentBytes := by
    rw [keep_members]
    exact (ExtTreeMap.weight_filter_le _).trans h.assignmentBytes
  -- fewer members offer the same protocols
  common := by
    obtain ⟨name, hname⟩ := h.common
    exact ⟨name, fun id m hid => hname id m (keep_getElem?.mp hid).1⟩
  generation_nonneg := by simpa using h.generation_nonneg
  generation_le := by simpa using h.generation_le
  joined_le := fun id m hid => by simpa using h.joined_le id m (keep_getElem?.mp hid).1
  rejoin_pos := fun id m hid => h.rejoin_pos id m (keep_getElem?.mp hid).1
  rejoin_le := fun id m hid => h.rejoin_le id m (keep_getElem?.mp hid).1

end Keep

/-! ## `start_rebalance` -/

theorem startRebalance_exec (now : Nat) (h : g.rebalanceId + 1 ≤ u64Max) :
    (startRebalance now).exec g = (.ok (), g.restarted now (g.rebalanceId + 1)) := by
  unfold startRebalance
  simp only [Section.exec_bind, Section.exec_get, checked, Section.exec_check,
    checkedAddU64, if_pos h, okOr]
  rfl

/-- The group in a rebalance, a new one unless there is one. -/
def rejoining (g : GroupState) (now : Nat) : GroupState :=
  if g.phase = .joining then g else g.restarted now (g.rebalanceId + 1)

theorem ensureRebalance_exec (h : g.phase ≠ .joining → g.rebalanceId + 1 ≤ u64Max) :
    (ensureRebalance now).exec g = (.ok (), g.rejoining now) := by
  unfold ensureRebalance rejoining
  simp only [Section.exec_bind, Section.exec_get]
  by_cases hphase : g.phase = .joining
  · simp [hphase]
  · simp [hphase, startRebalance_exec now (h hphase)]

theorem restarted_getElem? {r : Nat} {id : String} {m : MemberState} :
    (g.restarted now r).members[id]? = some m ↔
      ∃ m', g.members[id]? = some m' ∧ m'.restarted = m := by
  show (g.members.map fun _ member => member.restarted)[id]? = some m ↔ _
  rw [ExtTreeMap.getElem?_map, Option.map_eq_some_iff]

theorem restarted_mapped {r : Nat} (hr : g.rebalanceId ≤ r) :
    g.Mapped (g.restarted now r) fun _ member => member.restarted :=
  ⟨rfl, rfl, fun _ _ => rfl, fun _ _ => rfl, fun _ _ => rfl, hr⟩

theorem Sound.restarted (h : g.Sound) (now : Nat) (hr : (g.rebalanceId : Int) = g.generationId) :
    (g.restarted now (g.rebalanceId + 1)).Valid where
  toSound := h.mapped (restarted_mapped (Nat.le_succ _)) (weight_map_assignment fun _ _ => rfl)
    h.generation_nonneg h.generation_le
  rebalance := by
    show ((g.rebalanceId + 1 : Nat) : Int) = g.generationId + 1
    omega
  joining := fun _ => ⟨rfl, fun id m hid => by
    obtain ⟨m', -, rfl⟩ := restarted_getElem?.mp hid
    exact ⟨rfl, rfl⟩⟩
  announced := fun hne => absurd rfl hne
  awaiting := nofun
  stable := nofun

/-! ## `finalize_rebalance` -/

/-- The group in its next generation, with this protocol. -/
def finalized (g : GroupState) (now : Nat) (protocolName : String) : GroupState :=
  (g.generation now (g.generationId + 1) protocolName).announce now protocolName
    (g.roster protocolName)

theorem Sound.selectProtocol (h : g.Sound) : ∃ name, selectProtocol g = some name ∧
    ∀ (id : String) m, g.members[id]? = some m → offers m.protocols name = true := by
  obtain ⟨leader, hleader⟩ := ExtTreeMap.mem_iff_exists.mp h.leader
  obtain ⟨name, hname⟩ := h.common
  have hoffer := hname _ _ hleader
  -- the leader offers a protocol of the common name, so the search does not fail
  obtain ⟨choice, hchoice, heq⟩ := List.any_eq_true.mp hoffer
  have hcommon : (g.members.toList.all fun p => offers p.2.protocols choice.name) = true := by
    rw [ExtTreeMap.all_toList]
    intro id m hid
    rw [beq_iff_eq.mp heq]
    exact hname id m hid
  have hsome : (leader.protocols.find? fun choice => g.members.toList.all fun p =>
      offers p.2.protocols choice.name).isSome :=
    List.find?_isSome.mpr ⟨choice, hchoice, hcommon⟩
  obtain ⟨found, hfound⟩ := Option.isSome_iff_exists.mp hsome
  refine ⟨found.name, ?_, fun id m hid => ?_⟩
  · simp only [Group.selectProtocol, hleader, Option.bind_eq_bind, Option.bind_some, hfound]
    rfl
  · have hall := List.find?_some hfound
    exact ExtTreeMap.all_toList.mp hall id m hid

theorem offers_find {protocols : List JoinProtocol} {name : String}
    (h : offers protocols name = true) :
    ∃ protocol, protocols.find? (fun protocol => protocol.name == name) = some protocol :=
  Option.isSome_iff_exists.mp (List.find?_isSome.mpr (List.any_eq_true.mp h))

/-- The leader is told of every member, since all of them offer the protocol. -/
theorem leaderMembers_exec {name : String} (members : List (String × MemberState))
    (h : ∀ p ∈ members, offers p.2.protocols name = true) {s : GroupState} :
    (members.mapM (leaderMember name)).exec s = (.ok (members.map fun p =>
      ⟨p.1, ((p.2.protocols.find? fun protocol => protocol.name == name).map
        (·.metadata)).getD []⟩), s) := by
  induction members with
  | nil => rfl
  | cons p members ih =>
    obtain ⟨protocol, hprotocol⟩ := offers_find (h p (by simp))
    have hrest := ih fun q hq => h q (by simp [hq])
    have hhead : (leaderMember name p).exec s = (.ok ⟨p.1, protocol.metadata⟩, s) := by
      unfold leaderMember
      rw [hprotocol]
      rfl
    simp only [List.mapM_cons, Section.exec_bind, hhead, hrest, List.map_cons, hprotocol]
    rfl

theorem finalizeRebalance_exec (now : Nat) (h : g.Sound) (hlt : g.generationId < i32Max) :
    ∃ name, (finalizeRebalance now).exec g = (.ok (), g.finalized now name) ∧
      ∀ (id : String) m, g.members[id]? = some m → offers m.protocols name = true := by
  obtain ⟨name, hselect, hoffers⟩ := h.selectProtocol
  refine ⟨name, ?_, hoffers⟩
  have hnext : checkedAddI32 g.generationId 1 = some (g.generationId + 1) := by
    unfold checkedAddI32
    rw [if_pos (by omega)]
  unfold finalizeRebalance
  simp only [Section.exec_bind, ensureLeader_exec ⟨_, h.leader⟩, elected_of_mem h.leader,
    Section.exec_get, checked, Section.exec_check, hselect, okOr, Except.mapError, hnext,
    Section.exec_set, Section.exec_modify,
    leaderMembers_exec g.members.toList (ExtTreeMap.forall_toList.mpr hoffers)]
  rfl

/-- Generation numbers have run out. -/
theorem finalizeRebalance_exhausted (h : g.Sound) (heq : g.generationId = i32Max) :
    (finalizeRebalance now).exec g = (.error (.kafka .unknownServerError), g) := by
  obtain ⟨name, hselect, -⟩ := h.selectProtocol
  have hnext : checkedAddI32 g.generationId 1 = none := by
    unfold checkedAddI32
    rw [if_neg (by omega)]
  unfold finalizeRebalance
  simp only [Section.exec_bind, ensureLeader_exec ⟨_, h.leader⟩, elected_of_mem h.leader,
    Section.exec_get, checked, Section.exec_check, hselect, okOr, Except.mapError, hnext]

theorem finalized_members {name : String} : (g.finalized now name).members =
    g.members.map fun id member => member.finalized now
      (outcomeOf (g.generationId + 1) name g.leaderId (g.roster name) id) := rfl

theorem finalized_getElem? {name id : String} {m : MemberState} :
    (g.finalized now name).members[id]? = some m ↔ ∃ m', g.members[id]? = some m' ∧
      m'.finalized now
        (outcomeOf (g.generationId + 1) name g.leaderId (g.roster name) id) = m := by
  rw [finalized_members, ExtTreeMap.getElem?_map, Option.map_eq_some_iff]

theorem finalized_roster {name name' : String} :
    (g.finalized now name).roster name' = g.roster name' := by
  unfold roster
  rw [finalized_members, ExtTreeMap.toList_map, List.map_map]
  rfl

theorem finalized_mapped {name : String} : g.Mapped (g.finalized now name) fun id member =>
    member.finalized now (outcomeOf (g.generationId + 1) name g.leaderId (g.roster name) id) :=
  ⟨rfl, rfl, fun _ _ => rfl, fun _ _ => rfl, fun _ _ => rfl, le_rfl⟩

theorem Sound.finalized (h : g.Sound) (hlt : g.generationId < i32Max)
    (hr : (g.rebalanceId : Int) = g.generationId + 1)
    (hjoined : ∀ (id : String) m, g.members[id]? = some m → m.joinedRebalance = g.rebalanceId)
    {name : String}
    (hoffers : ∀ (id : String) m, g.members[id]? = some m → offers m.protocols name = true) :
    (g.finalized now name).Valid where
  -- everything but the generation and the assignments comes from `mapped`
  toSound := by
    apply h.mapped finalized_mapped (weight_map_assignment fun _ _ => rfl)
    · show 0 ≤ g.generationId + 1
      have := h.generation_nonneg
      omega
    · show g.generationId + 1 ≤ i32Max
      omega
  rebalance := by
    show (g.rebalanceId : Int) = g.generationId + 1 + 0
    -- a stable generation has the number of the rebalance that led to it
    omega
  joining := nofun
  announced := fun _ => by
    refine ⟨name, rfl, fun id m hid => ?_, fun id m hid => ?_, fun id m hid => ?_⟩
    -- each member is one of before, announced and without an assignment
    all_goals obtain ⟨m', hm', rfl⟩ := finalized_getElem?.mp hid
    · exact hoffers id m' hm'
    · exact hjoined id m' hm'
    · rw [finalized_roster]
      rfl
  -- the assignments are taken away, so that the leader's are awaited
  awaiting := fun _ id m hid => by
    obtain ⟨m', -, rfl⟩ := finalized_getElem?.mp hid
    rfl
  stable := nofun

end GroupState

/-! ## Deadlines of phases -/

theorem le_latestRejoin {members : Members} (now default : Nat) {id : String} {m : MemberState}
    (hid : members[id]? = some m) : now + m.rebalanceTimeout ≤ latestRejoin members now default := by
  apply List.le_max?_getD_of_mem
  exact List.mem_map.mpr ⟨(id, m), ExtTreeMap.mem_toList_iff_getElem?_eq_some.mpr hid, rfl⟩

theorem latestRejoin_le {members : Members} {default bound : Nat} (hdefault : default ≤ bound)
    (h : ∀ (id : String) m, members[id]? = some m → now + m.rebalanceTimeout ≤ bound) :
    latestRejoin members now default ≤ bound := by
  unfold latestRejoin
  cases hmax : (members.toList.map fun p => now + p.2.rebalanceTimeout).max? with
  | none => exact hdefault
  | some latest =>
    obtain ⟨hmem, -⟩ := List.max?_eq_some_iff.mp hmax
    obtain ⟨⟨id, m⟩, hp, rfl⟩ := List.mem_map.mp hmem
    exact h id m (ExtTreeMap.mem_toList_iff_getElem?_eq_some.mp hp)

/-! ## `advance_group` -/

/-- The member's deadline has not passed. -/
def alive (now : Nat) (_ : String) (m : MemberState) : Bool := now < m.deadline

namespace GroupState

/-- The members that are still there, and, when the time to rejoin is over, have rejoined. -/
def lasting (g : GroupState) (now : Nat) : GroupState :=
  if now < g.phaseDeadline then g.keep (alive now)
  else (g.keep (alive now)).keep fun _ m => m.joinedRebalance == g.rebalanceId

theorem lasting_getElem? {id : String} {m : MemberState} :
    (g.lasting now).members[id]? = some m ↔ g.members[id]? = some m ∧ now < m.deadline ∧
      (g.phaseDeadline ≤ now → m.joinedRebalance = g.rebalanceId) := by
  unfold lasting
  split
  · rename_i hlt
    have hnot : ¬ g.phaseDeadline ≤ now := by omega
    rw [keep_getElem?]
    simp [alive, hnot]
  · rename_i hge
    have hle : g.phaseDeadline ≤ now := by omega
    rw [keep_getElem?, keep_getElem?]
    simp [alive, hle, and_assoc]

@[simp] theorem lasting_phase : (g.lasting now).phase = g.phase := by
  unfold lasting
  split <;> simp

@[simp] theorem lasting_rebalanceId : (g.lasting now).rebalanceId = g.rebalanceId := by
  unfold lasting
  split <;> simp

@[simp] theorem lasting_generationId : (g.lasting now).generationId = g.generationId := by
  unfold lasting
  split <;> simp

@[simp] theorem lasting_phaseDeadline : (g.lasting now).phaseDeadline = g.phaseDeadline := by
  unfold lasting
  split <;> simp

@[simp] theorem lasting_protocolName : (g.lasting now).protocolName = g.protocolName := by
  unfold lasting
  split <;> simp

theorem Sound.lasting (h : g.Sound) (hsome : ∃ (id : String) (m : MemberState),
    (g.lasting now).members[id]? = some m) : (g.lasting now).Sound := by
  obtain ⟨id, m, hid⟩ := hsome
  obtain ⟨hmem, halive, hjoined⟩ := lasting_getElem?.mp hid
  have hkept : (g.keep (alive now)).Sound := h.keep ⟨id, m, hmem, by simpa [alive] using halive⟩
  unfold GroupState.lasting
  split
  · exact hkept
  · rename_i hge
    apply hkept.keep
    exact ⟨id, m, keep_getElem?.mpr ⟨hmem, by simpa [alive] using halive⟩,
      by simpa using hjoined (by omega)⟩

theorem Valid.lasting (h : g.Valid) (hphase : g.phase = .joining)
    (hsome : ∃ (id : String) (m : MemberState), (g.lasting now).members[id]? = some m) :
    (g.lasting now).Valid where
  toSound := h.toSound.lasting hsome
  rebalance := by simpa using h.rebalance
  joining := fun _ => by
    obtain ⟨hname, hmembers⟩ := h.joining hphase
    refine ⟨by simpa using hname, fun id m hid => ?_⟩
    exact hmembers id m (lasting_getElem?.mp hid).1
  announced := fun hne => absurd (by simpa using hphase) hne
  awaiting := fun hawaiting => by simp [hphase] at hawaiting
  stable := fun hstable => by simp [hphase] at hstable

end GroupState

/-- Everything that `advance_group` can come to: its result and the group it leaves. -/
inductive Advanced (now : Nat) (g : GroupState) : Except Halt Bool → Option GroupState → Prop where
  /-- Nothing is due. -/
  | idle (phase : g.phase ≠ .joining)
      (live : ∀ (id : String) m, g.members[id]? = some m → now < m.deadline)
      (time : g.phase = .awaitingSync → now < g.phaseDeadline) :
      Advanced now g (.ok false) (some g)
  /-- All members have expired. -/
  | vanished (dead : ∀ (id : String) m, g.members[id]? = some m → m.deadline ≤ now) :
      Advanced now g (.ok true) none
  /-- Members have expired, or the leader has not synced in time: the others rejoin. -/
  | restarted (phase : g.phase ≠ .joining)
      (left : ∃ (id : String) (m : MemberState), g.members[id]? = some m ∧ now < m.deadline)
      (why : (∃ (id : String) (m : MemberState), g.members[id]? = some m ∧ m.deadline ≤ now) ∨
        g.phase = .awaitingSync ∧ g.phaseDeadline ≤ now) :
      Advanced now g (.ok true)
        (some ((g.keep (alive now)).restarted now (g.rebalanceId + 1)))
  /-- The time to rejoin is over, and nobody who is left has rejoined. -/
  | deserted (phase : g.phase = .joining) (time : g.phaseDeadline ≤ now)
      (nobody : ∀ (id : String) m, (g.lasting now).members[id]? ≠ some m) :
      Advanced now g (.ok true) none
  /-- The group waits for members to rejoin. -/
  | waiting (changed : Bool) (phase : g.phase = .joining)
      (laggard : ∃ (id : String) (m : MemberState), (g.lasting now).members[id]? = some m ∧
        m.joinedRebalance ≠ g.rebalanceId) :
      Advanced now g (.ok changed) (some (g.lasting now))
  /-- The rebalance is complete. -/
  | completed (name : String) (phase : g.phase = .joining)
      (left : ∃ (id : String) (m : MemberState), (g.lasting now).members[id]? = some m)
      (joined : ∀ (id : String) m, (g.lasting now).members[id]? = some m →
        m.joinedRebalance = g.rebalanceId)
      (room : g.generationId < i32Max)
      (offered : ∀ (id : String) m, (g.lasting now).members[id]? = some m →
        offers m.protocols name = true) :
      Advanced now g (.ok true) (some ((g.lasting now).finalized now name))
  /-- The rebalance is complete, and there is no number left for the generation. -/
  | exhausted (phase : g.phase = .joining)
      (left : ∃ (id : String) (m : MemberState), (g.lasting now).members[id]? = some m)
      (joined : ∀ (id : String) m, (g.lasting now).members[id]? = some m →
        m.joinedRebalance = g.rebalanceId)
      (full : g.generationId = i32Max) :
      Advanced now g (.error (.kafka .unknownServerError)) (some (g.lasting now))

/-! ### The sections of `advance_group` -/

section Expiry

theorem expireMembers_live (h : ∀ (id : String) m, g.members[id]? = some m → now < m.deadline) :
    (expireMembers now).exec (some g) = (.ok false, some g) := by
  have hall : (g.members.toList.all fun p => decide (now < p.2.deadline)) = true := by
    rw [ExtTreeMap.all_toList]
    intro id m hid
    exact decide_eq_true (h id m hid)
  unfold expireMembers
  simp only [Section.exec_bind, Section.exec_get, hall, if_true, Section.exec_pure]

theorem expireMembers_dead {id : String} {m : MemberState} (hid : g.members[id]? = some m)
    (h : ∀ (id : String) m, g.members[id]? = some m → m.deadline ≤ now) :
    (expireMembers now).exec (some g) = (.ok true, none) := by
  have hall : ¬ (g.members.toList.all fun p => decide (now < p.2.deadline)) = true := by
    rw [ExtTreeMap.all_toList]
    intro hall
    have hlive : now < m.deadline := of_decide_eq_true (hall id m hid)
    have := h id m hid
    omega
  have hempty : (g.members.filter fun _ member => decide (now < member.deadline)).isEmpty = true := by
    rw [ExtTreeMap.isEmpty_iff_forall]
    intro id
    rw [Option.eq_none_iff_forall_ne_some]
    intro m hm
    obtain ⟨hmem, hlt⟩ := ExtTreeMap.getElem?_filter_eq_some.mp hm
    have := h id m hmem
    have := of_decide_eq_true hlt
    omega
  unfold expireMembers
  simp only [Section.exec_bind, Section.exec_get, hall, if_false, hempty, if_true,
    Section.exec_set, Section.exec_pure, Bool.false_eq_true]

/-- Some members have expired and some have not. -/
theorem expireMembers_some {id id' : String} {m m' : MemberState}
    (hid : g.members[id]? = some m) (hlive : now < m.deadline)
    (hid' : g.members[id']? = some m') (hdead : m'.deadline ≤ now)
    (hr : g.phase ≠ .joining → g.rebalanceId + 1 ≤ u64Max) :
    (expireMembers now).exec (some g) = (.ok true, some (if g.phase = .joining
      then g.keep (alive now)
      else (g.keep (alive now)).restarted now (g.rebalanceId + 1))) := by
  -- the member that has expired keeps the first test from passing
  have hall : ¬ (g.members.toList.all fun p => decide (now < p.2.deadline)) = true := by
    rw [ExtTreeMap.all_toList]
    intro hall
    have hlive : now < m'.deadline := of_decide_eq_true (hall id' m' hid')
    omega
  -- the member that is alive keeps the second from passing
  have hleft : (g.members.filter fun _ member => decide (now < member.deadline))[id]? = some m :=
    ExtTreeMap.getElem?_filter_eq_some.mpr ⟨hid, decide_eq_true hlive⟩
  have hempty : ¬ (g.members.filter fun _ member =>
      decide (now < member.deadline)).isEmpty = true := by
    rw [ExtTreeMap.isEmpty_iff_forall]
    intro hnone
    rw [hnone id] at hleft
    cases hleft
  unfold expireMembers
  simp only [Section.exec_bind, Section.exec_get, hall, if_false, hempty, Section.exec_within,
    Bool.false_eq_true]
  -- the leader is elected among those who are left
  have hensure : ensureLeader.exec { g with
      members := g.members.filter (fun _ member => decide (now < member.deadline)) } =
      (.ok (), g.keep (alive now)) :=
    GroupState.ensureLeader_exec ⟨id, ExtTreeMap.mem_iff_exists.mpr ⟨m, hleft⟩⟩
  rw [hensure]
  -- a rebalance under way goes on, and otherwise a new one starts
  have hrejoin : (ensureRebalance now).exec (g.keep (alive now)) =
      (.ok (), (g.keep (alive now)).rejoining now) :=
    GroupState.ensureRebalance_exec (by simpa using hr)
  simp only [hrejoin, GroupState.rejoining, GroupState.keep_phase, GroupState.keep_rebalanceId,
    Section.exec_pure]

end Expiry

section Phases

variable {k : GroupState}

/-- A rebalance that has members which have not joined it goes on. -/
theorem completeRebalance_waiting {id : String} {m : MemberState}
    (hid : k.members[id]? = some m) (hne : m.joinedRebalance ≠ k.rebalanceId) :
    (completeRebalance now).exec (some k) = (.ok false, some k) := by
  have hall : ¬ allJoined k.members k.rebalanceId = true := by
    unfold allJoined
    rw [ExtTreeMap.all_toList]
    intro hall
    exact hne (beq_iff_eq.mp (hall id m hid))
  unfold completeRebalance
  simp only [Section.exec_bind, Section.exec_get, hall, if_false, Section.exec_pure,
    Bool.false_eq_true]

/-- A rebalance that every member has joined is complete. -/
theorem completeRebalance_joined
    (h : ∀ (id : String) m, k.members[id]? = some m → m.joinedRebalance = k.rebalanceId)
    {Q : Bool → Option GroupState → Prop} {F : Halt → Option GroupState → Prop} :
    Section.Gives (completeRebalance now) (some k) Q F ↔
      Section.Gives (finalizeRebalance now) k (fun _ k' => Q true (some k'))
        fun e k' => F e (some k') := by
  have hall : allJoined k.members k.rebalanceId = true := by
    unfold allJoined
    rw [ExtTreeMap.all_toList]
    intro id m hid
    exact beq_iff_eq.mpr (h id m hid)
  simp only [completeRebalance, Section.gives_bind, Section.gives_get, hall, if_true,
    Section.gives_within, Section.gives_pure]

theorem dropLaggards_early (h : now < k.phaseDeadline) :
    (dropLaggards now).exec (some k) = (.ok false, some k) := by
  unfold dropLaggards
  simp only [Section.exec_bind, Section.exec_get, if_pos h, Section.exec_pure]

theorem dropLaggards_deserted (htime : k.phaseDeadline ≤ now)
    (h : ∀ (id : String) m, k.members[id]? = some m → m.joinedRebalance ≠ k.rebalanceId) :
    (dropLaggards now).exec (some k) = (.ok true, none) := by
  have hempty : (k.members.filter fun _ member =>
      member.joinedRebalance == k.rebalanceId).isEmpty = true := by
    rw [ExtTreeMap.isEmpty_iff_forall]
    intro id
    rw [Option.eq_none_iff_forall_ne_some]
    intro m hm
    obtain ⟨hmem, heq⟩ := ExtTreeMap.getElem?_filter_eq_some.mp hm
    exact h id m hmem (beq_iff_eq.mp heq)
  unfold dropLaggards
  simp only [Section.exec_bind, Section.exec_get, if_neg (not_lt.mpr htime), hempty, if_true,
    Section.exec_set, Section.exec_pure]

theorem dropLaggards_left (htime : k.phaseDeadline ≤ now) {id : String} {m : MemberState}
    (hid : k.members[id]? = some m) (heq : m.joinedRebalance = k.rebalanceId) :
    (dropLaggards now).exec (some k) =
      (.ok true, some (k.keep fun _ m => m.joinedRebalance == k.rebalanceId)) := by
  have hleft : (k.members.filter fun _ member =>
      member.joinedRebalance == k.rebalanceId)[id]? = some m :=
    ExtTreeMap.getElem?_filter_eq_some.mpr ⟨hid, beq_iff_eq.mpr heq⟩
  have hempty : ¬ (k.members.filter fun _ member =>
      member.joinedRebalance == k.rebalanceId).isEmpty = true := by
    rw [ExtTreeMap.isEmpty_iff_forall]
    intro hnone
    rw [hnone id] at hleft
    cases hleft
  have hensure : ensureLeader.exec { k with
      members := k.members.filter (fun _ member => member.joinedRebalance == k.rebalanceId) } =
      (.ok (), k.keep fun _ m => m.joinedRebalance == k.rebalanceId) :=
    GroupState.ensureLeader_exec ⟨id, ExtTreeMap.mem_iff_exists.mpr ⟨m, hleft⟩⟩
  unfold dropLaggards
  simp only [Section.exec_bind, Section.exec_get, if_neg (not_lt.mpr htime), hempty, if_false,
    Section.exec_within, hensure, Section.exec_pure, Bool.false_eq_true]

end Phases

section Advance

variable {Q : Bool → Option GroupState → Prop} {F : Halt → Option GroupState → Prop}

/-- How a rebalance goes on once the members that do not last are gone. -/
private theorem complete_lasting (h : g.Valid) (hphase : g.phase = .joining)
    (hleft : ∃ (id : String) (m : MemberState), (g.lasting now).members[id]? = some m)
    (changed : Bool) : Section.Gives (completeRebalance now) (some (g.lasting now))
      (fun completed s => Advanced now g (.ok (changed || completed)) s)
      fun e s => Advanced now g (.error e) s := by
  have hsound := h.toSound.lasting hleft
  by_cases hjoined : ∀ (id : String) m, (g.lasting now).members[id]? = some m →
      m.joinedRebalance = g.rebalanceId
  · rw [completeRebalance_joined (by simpa using hjoined)]
    by_cases hlt : g.generationId < i32Max
    · obtain ⟨name, hexec, hoffers⟩ :=
        GroupState.finalizeRebalance_exec now hsound (by simpa using hlt)
      rw [Section.gives_of_ok hexec, Bool.or_true]
      exact .completed name hphase hleft hjoined hlt hoffers
    · have heq : g.generationId = i32Max := by
        have := h.generation_le
        omega
      rw [Section.gives_of_error (GroupState.finalizeRebalance_exhausted hsound (by simpa using heq))]
      exact .exhausted hphase hleft hjoined heq
  · simp only [not_forall] at hjoined
    obtain ⟨id, m, hid, hne⟩ := hjoined
    rw [Section.gives_of_ok (completeRebalance_waiting hid (by simpa using hne))]
    exact .waiting _ hphase ⟨id, m, hid, hne⟩

theorem advancePhase_joining {k : GroupState} (h : k.phase = .joining) :
    Section.Gives (advancePhase now) (some k) Q F ↔
      Section.Gives (dropLaggards now) (some k) (fun dropped s =>
        Section.Gives (completeRebalance now) s (fun completed s' => Q (dropped || completed) s')
          F) F := by
  simp only [advancePhase, Section.gives_bind, Section.gives_get, h, Section.gives_pure]

/-- A group in which everybody who is left rejoins. -/
private theorem advancePhase_restarted (now : Nat) {k : GroupState} (h : k.Sound) {id : String}
    {m : MemberState} (hid : k.members[id]? = some m) :
    Section.Gives (advancePhase now) (some (k.restarted now (k.rebalanceId + 1))) Q F ↔
      Q false (some (k.restarted now (k.rebalanceId + 1))) := by
  -- the new deadline lies ahead, and nobody has joined yet
  have htime : now < (k.restarted now (k.rebalanceId + 1)).phaseDeadline := by
    show now < latestRejoin k.members now now
    have := h.rejoin_pos id m hid
    have := le_latestRejoin now now hid
    omega
  have hmember : (k.restarted now (k.rebalanceId + 1)).members[id]? = some m.restarted :=
    GroupState.restarted_getElem?.mpr ⟨m, hid, rfl⟩
  have hne : m.restarted.joinedRebalance ≠ (k.restarted now (k.rebalanceId + 1)).rebalanceId := by
    show m.joinedRebalance ≠ k.rebalanceId + 1
    have := h.joined_le id m hid
    omega
  rw [advancePhase_joining rfl, Section.gives_of_ok (dropLaggards_early htime),
    Section.gives_of_ok (completeRebalance_waiting hmember hne), Bool.or_false]

/-- A joining group loses its expired members and goes on. -/
private theorem expireMembers_joining (h : g.Valid) (hphase : g.phase = .joining) {id : String}
    {m : MemberState} (hid : g.members[id]? = some m) (hlive : now < m.deadline) :
    ∃ expired, (expireMembers now).exec (some g) = (.ok expired, some (g.keep (alive now))) := by
  by_cases hdead : ∃ (id : String) (m : MemberState), g.members[id]? = some m ∧ m.deadline ≤ now
  · obtain ⟨id', m', hid', hdead⟩ := hdead
    refine ⟨true, ?_⟩
    rw [expireMembers_some hid hlive hid' hdead (fun hne => absurd hphase hne), if_pos hphase]
  · simp only [not_exists, not_and, not_le] at hdead
    have hkeep : g.keep (alive now) = g :=
      GroupState.keep_of_all h.leader fun id m hid => decide_eq_true (hdead id m hid)
    refine ⟨false, ?_⟩
    rw [hkeep]
    exact expireMembers_live hdead

private theorem advance_joining (h : g.Valid) (hphase : g.phase = .joining) {id : String}
    {m : MemberState} (hid : g.members[id]? = some m) (hlive : now < m.deadline) :
    Section.Gives (advanceGroup now) (some g) (fun changed s => Advanced now g (.ok changed) s)
      fun e s => Advanced now g (.error e) s := by
  -- the expired ones go first, and the rebalance is still under way
  obtain ⟨expired, hexpire⟩ := expireMembers_joining h hphase hid hlive
  have hkeep : (g.keep (alive now)).members[id]? = some m :=
    GroupState.keep_getElem?.mpr ⟨hid, decide_eq_true hlive⟩
  simp only [advanceGroup, Section.gives_bind, Section.gives_pure, Section.gives_of_ok hexpire,
    advancePhase_joining (k := g.keep (alive now)) (by simpa using hphase)]
  by_cases htime : now < g.phaseDeadline
  · -- there is still time to rejoin
    have hlasting : g.lasting now = g.keep (alive now) := if_pos htime
    rw [Section.gives_of_ok (dropLaggards_early (by simpa using htime)), ← hlasting]
    simp only [Bool.false_or]
    exact complete_lasting h hphase ⟨id, m, hlasting ▸ hkeep⟩ expired
  have hlasting : g.lasting now = (g.keep (alive now)).keep fun _ m =>
      m.joinedRebalance == g.rebalanceId := if_neg htime
  by_cases hleft : ∃ (id : String) (m : MemberState), (g.lasting now).members[id]? = some m
  · obtain ⟨id', m', hid'⟩ := hleft
    have hmem := hid'
    rw [hlasting, GroupState.keep_getElem?] at hmem
    rw [Section.gives_of_ok (dropLaggards_left (by simpa using htime) hmem.1
      (by simpa using hmem.2))]
    simp only [GroupState.keep_rebalanceId, ← hlasting, ← Bool.or_assoc]
    exact complete_lasting h hphase ⟨id', m', hid'⟩ _
  · -- nobody who is left has rejoined
    simp only [not_exists] at hleft
    -- the laggards are dropped, and they were all that was left
    have hnobody : ∀ (id : String) m, (g.keep (alive now)).members[id]? = some m →
        m.joinedRebalance ≠ (g.keep (alive now)).rebalanceId := by
      intro id m hid heq
      apply hleft id m
      rw [hlasting, GroupState.keep_getElem?]
      exact ⟨hid, by simpa using heq⟩
    rw [Section.gives_of_ok (dropLaggards_deserted (by simpa using htime) hnobody)]
    have hnone : (completeRebalance now).exec none = (.ok false, none) := rfl
    rw [Section.gives_of_ok hnone, Bool.or_false, Bool.or_true]
    exact .deserted hphase (by omega) hleft

/-- **What `advance_group` can come to.** -/
theorem advanceGroup_cases (now : Nat) (h : g.Valid) :
    Section.Gives (advanceGroup now) (some g) (fun changed s => Advanced now g (.ok changed) s)
      fun e s => Advanced now g (.error e) s := by
  -- the leader is a member, so that the group is not empty
  obtain ⟨leader, hleader⟩ := ExtTreeMap.mem_iff_exists.mp h.leader
  -- either all have expired, or somebody is alive
  by_cases hdead : ∀ (id : String) m, g.members[id]? = some m → m.deadline ≤ now
  · have hnone : (advancePhase now).exec none = (.ok false, none) := rfl
    simp only [advanceGroup, Section.gives_bind, Section.gives_pure,
      Section.gives_of_ok (expireMembers_dead hleader hdead), Section.gives_of_ok hnone,
      Bool.or_false]
    exact .vanished hdead
  simp only [not_forall, not_le] at hdead
  obtain ⟨id, m, hid, hlive⟩ := hdead
  -- in a rebalance the time to rejoin decides what follows
  by_cases hphase : g.phase = .joining
  · exact advance_joining h hphase hid hlive
  have hrestart := GroupState.startRebalance_exec now h.rebalance_lt
  by_cases hall : ∀ (id : String) m, g.members[id]? = some m → now < m.deadline
  · -- nobody has expired: only the leader may be late
    have hkeep : g.keep (alive now) = g :=
      GroupState.keep_of_all h.leader fun id m hid => decide_eq_true (hall id m hid)
    simp only [advanceGroup, Section.gives_bind, Section.gives_pure,
      Section.gives_of_ok (expireMembers_live hall), Bool.false_or]
    cases hg : g.phase with
    | joining => exact absurd hg hphase
    | stable =>
      simp only [advancePhase, Section.gives_bind, Section.gives_get, hg, Section.gives_pure]
      exact .idle hphase hall (fun hne => by simp [hg] at hne)
    -- assignments that have not come in time lead to another rebalance
    | awaitingSync =>
      simp only [advancePhase, Section.gives_bind, Section.gives_get, hg]
      split
      · rename_i htime
        exact .idle hphase hall fun _ => htime
      · rename_i htime
        simp only [Section.gives_bind, Section.gives_within, Section.gives_of_ok hrestart,
          Section.gives_pure]
        have := Advanced.restarted hphase ⟨id, m, hid, hlive⟩ (.inr ⟨hg, not_lt.mp htime⟩)
        rwa [hkeep] at this
  · simp only [not_forall, not_lt] at hall
    obtain ⟨id', m', hid', hdead⟩ := hall
    have hkeep : (g.keep (alive now)).members[id]? = some m :=
      GroupState.keep_getElem?.mpr ⟨hid, decide_eq_true hlive⟩
    -- somebody has expired, so that what is left starts a rebalance, and its phase decides nothing
    have hsound : (g.keep (alive now)).Sound := h.toSound.keep ⟨id, m, hid, decide_eq_true hlive⟩
    have hgo := advancePhase_restarted now hsound hkeep (Q := fun b s =>
      Advanced now g (.ok (true || b)) s) (F := fun e s => Advanced now g (.error e) s)
    simp only [GroupState.keep_rebalanceId] at hgo
    simp only [advanceGroup, Section.gives_bind, Section.gives_pure,
      Section.gives_of_ok (expireMembers_some hid hlive hid' hdead fun _ => h.rebalance_lt),
      if_neg hphase]
    exact hgo.mpr (.restarted hphase ⟨id, m, hid, hlive⟩ (.inl ⟨id', m', hid', hdead⟩))

end Advance

end Walstream.Group

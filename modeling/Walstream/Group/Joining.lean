import Walstream.Group.Checks

/-!
# What a join does to a group

Everything that the first section of `join` can come to (`JoinRequest.Entered`), from a group
that has the invariant, and that it keeps the invariant.
-/

namespace Walstream.Group

open Interaction Log
open Std (ExtTreeMap)

variable {g : GroupState} {now : Nat}

namespace GroupState

@[simp] theorem rejoining_phase : (g.rejoining now).phase = .joining := by
  unfold rejoining
  split
  · assumption
  · rfl

theorem rejoining_mapped (now : Nat) : ∃ f, g.Mapped (g.rejoining now) f := by
  unfold rejoining
  split
  · refine ⟨fun _ member => member, ?_, rfl, fun _ _ => rfl, fun _ _ => rfl, fun _ _ => rfl, le_rfl⟩
    apply ExtTreeMap.ext_getElem?
    intro id
    rw [ExtTreeMap.getElem?_map, Option.map_id']
  · exact ⟨_, restarted_mapped (Nat.le_succ _)⟩

theorem Valid.rejoining (h : g.Valid) (now : Nat) : (g.rejoining now).Valid := by
  unfold GroupState.rejoining
  split
  · exact h
  · rename_i hphase
    apply h.toSound.restarted now
    have := h.rebalance
    simpa [hphase] using this

end GroupState

namespace JoinRequest

variable {request : JoinRequest} {assigned id : String}

/-- The id of the member that the request is about. -/
def idFor (request : JoinRequest) (assigned : String) : String :=
  if request.memberId = "" then assigned else request.memberId

theorem idFor_ne (request : JoinRequest) (hassigned : assigned ≠ "") :
    request.idFor assigned ≠ "" := by
  unfold idFor
  split
  · exact hassigned
  · assumption

/-- The group with the request's member on file. -/
def registered (request : JoinRequest) (now : Nat) (id : String) (g : GroupState) : GroupState :=
  let members := g.members.insert id (request.member now g.rebalanceId)
  { g with
    members
    phaseDeadline := latestRejoin members now (now + fromMillis request.rebalanceTimeoutMs) }

theorem registered_getElem? {k : String} {m : MemberState} :
    (request.registered now id g).members[k]? = some m ↔
      (k = id ∧ request.member now g.rebalanceId = m) ∨ (k ≠ id ∧ g.members[k]? = some m) := by
  show (g.members.insert id (request.member now g.rebalanceId))[k]? = some m ↔ _
  rw [ExtTreeMap.getElem?_insert_ite]
  split
  · rename_i heq
    simp [heq]
  · rename_i hne
    simp [hne]

theorem found_getElem? {k : String} {m : MemberState} :
    (request.found now assigned).members[k]? = some m ↔
      k = assigned ∧ request.member now 1 = m := by
  show ((∅ : Members).insert assigned (request.member now 1))[k]? = some m ↔ _
  rw [ExtTreeMap.getElem?_insert_ite]
  split
  · rename_i heq
    simp [heq]
  · rename_i hne
    simp [hne]

theorem register_exec : (request.register now id).exec g =
    (.ok (id, g.rebalanceId), request.registered now id g) := rfl

/-- What a request is checked for before it looks for its group. -/
structure Checked (request : JoinRequest) : Prop where
  nonempty : request.protocols ≠ []
  weight : protocolWeight request.protocols ≤ maxMemberProtocolBytes
  session_pos : 1 ≤ request.sessionTimeoutMs
  rebalance_pos : 1 ≤ request.rebalanceTimeoutMs
  rebalance_le : request.rebalanceTimeoutMs ≤ maxSessionTimeoutMs

theorem validate_spec {group : String} (h : request.validate group = .ok ()) :
    request.Checked := by
  simp only [validate, bind_eq_ok, validateSessionTimeout, validateRebalanceTimeout,
    rejectIf_eq_ok, not_not] at h
  obtain ⟨_, -, _, hsession, _, hrebalance, _, -, hprotocols⟩ := h
  obtain ⟨hne, hweight⟩ := validateProtocols_spec hprotocols
  exact ⟨hne, hweight, hsession.1, hrebalance.1, hrebalance.2⟩

theorem Checked.rejoin_pos (h : request.Checked) : 0 < fromMillis request.rebalanceTimeoutMs := by
  have := h.rebalance_pos
  unfold fromMillis
  omega

theorem Checked.rejoin_le (h : request.Checked) :
    fromMillis request.rebalanceTimeoutMs ≤ fromMillis maxSessionTimeoutMs := by
  have := h.rebalance_le
  unfold fromMillis
  omega

/-! ## The first section -/

/-- Everything that the first section of `join` can come to. -/
inductive Entered (request : JoinRequest) (now : Nat) (assigned : String) :
    Option GroupState → Except Halt (String × Nat) → Option GroupState → Prop where
  /-- The member is the first one of a new group. -/
  | founded (new : request.memberId = "") :
      Entered request now assigned none (.ok (assigned, 1)) (some (request.found now assigned))
  /-- There is no such group. -/
  | unknown (old : request.memberId ≠ "") :
      Entered request now assigned none (.error (.kafka .unknownMemberId)) none
  /-- The request does not fit the group. -/
  | rejected {g : GroupState} (e : CoordinatorError) (why : request.validateFor g = .error e) :
      Entered request now assigned (some g) (.error (.error e)) (some g)
  /-- There is no room for a new member. -/
  | full {g : GroupState} (new : request.memberId = "") (why : maxGroupMembers ≤ g.members.size) :
      Entered request now assigned (some g) (.error (.kafka .groupMaxSizeReached)) (some g)
  /-- The member joins the rebalance. -/
  | accepted {g : GroupState} (fits : request.validateFor g = .ok ())
      (room : request.memberId = "" → g.members.size < maxGroupMembers) :
      Entered request now assigned (some g)
        (.ok (request.idFor assigned, (g.rejoining now).rebalanceId))
        (some (request.registered now (request.idFor assigned) (g.rejoining now)))

theorem validateFor_spec (h : request.validateFor g = .ok ()) :
    (request.memberId ≠ "" → request.memberId ∈ g.members) ∧
      protocolsCompatible g request.memberId request.protocols = true ∧
      validateGroupProtocolBudget g request.memberId request.protocols = .ok () := by
  simp only [validateFor, bind_eq_ok, rejectIf_eq_ok, not_and, not_not, not_or] at h
  obtain ⟨_, hmember, _, ⟨-, hcompatible⟩, hbudget⟩ := h
  exact ⟨hmember, by simpa using hcompatible, hbudget⟩

theorem enter_rejected {e : CoordinatorError} (h : request.validateFor g = .error e) :
    (request.enter now assigned).exec (some g) = (.error (.error e), some g) := by
  unfold enter
  simp only [Section.exec_bind, Section.exec_get, checked, Section.exec_check, h, Except.mapError]

theorem enter_full (hfits : request.validateFor g = .ok ()) (hnew : request.memberId = "")
    (hfull : maxGroupMembers ≤ g.members.size) :
    (request.enter now assigned).exec (some g) =
      (.error (.kafka .groupMaxSizeReached), some g) := by
  unfold enter registerNew
  simp only [Section.exec_bind, Section.exec_get, checked, Section.exec_check, hfits,
    Except.mapError, if_pos hnew, Section.exec_within, if_pos hfull, Section.exec_throw]

theorem enter_accepted (h : g.Valid) (hfits : request.validateFor g = .ok ())
    (hroom : request.memberId = "" → g.members.size < maxGroupMembers) :
    (request.enter now assigned).exec (some g) =
      (.ok (request.idFor assigned, (g.rejoining now).rebalanceId),
        some (request.registered now (request.idFor assigned) (g.rejoining now))) := by
  unfold enter idFor
  simp only [Section.exec_bind, Section.exec_get, checked, Section.exec_check, hfits,
    Except.mapError]
  by_cases hnew : request.memberId = ""
  · have hlt := hroom hnew
    unfold registerNew
    simp only [if_pos hnew, Section.exec_within, Section.exec_bind, Section.exec_get,
      if_neg (not_le.mpr hlt), ge_iff_le, GroupState.ensureRebalance_exec fun _ => h.rebalance_lt,
      register_exec]
  · -- a rebalance keeps the member
    obtain ⟨f, hmap⟩ := GroupState.rejoining_mapped (g := g) now
    obtain ⟨m, hm⟩ := ExtTreeMap.mem_iff_exists.mp ((validateFor_spec hfits).1 hnew)
    have hkept : (g.rejoining now).members[request.memberId]? = some (f request.memberId m) :=
      hmap.getElem?.mpr ⟨m, hm, rfl⟩
    unfold registerAgain
    simp only [if_neg hnew, Section.exec_within, Section.exec_bind, Section.exec_get,
      GroupState.ensureRebalance_exec fun _ => h.rebalance_lt, hkept, expect, Section.orStop,
      Section.exec_pure, register_exec]

/-- **What the first section of `join` can come to**, after its `advance_group`. -/
theorem enter_entered {s : Option GroupState} (h : ∀ g, s = some g → g.Valid) :
    Entered request now assigned s ((request.enter now assigned).exec s).1
      ((request.enter now assigned).exec s).2 := by
  cases s with
  -- nobody is there: the join founds the group, unless it names a member
  | none =>
    by_cases hnew : request.memberId = ""
    · have hexec : (request.enter now assigned).exec none =
          (.ok (assigned, 1), some (request.found now assigned)) := by
        unfold enter
        simp only [Section.exec_bind, Section.exec_get, if_pos hnew, Section.exec_set,
          Section.exec_pure]
      rw [hexec]
      exact .founded hnew
    · have hexec : (request.enter now assigned).exec none =
          (.error (.kafka .unknownMemberId), none) := by
        unfold enter
        simp only [Section.exec_bind, Section.exec_get, if_neg hnew, Section.exec_throw]
      rw [hexec]
      exact .unknown hnew
  -- it is checked against the group, which may also be full
  | some g =>
    cases hfits : request.validateFor g with
    | error e =>
      rw [enter_rejected hfits]
      exact .rejected e hfits
    | ok _ =>
      by_cases hroom : request.memberId = "" → g.members.size < maxGroupMembers
      · rw [enter_accepted (h g rfl) hfits hroom]
        exact .accepted hfits hroom
      · obtain ⟨hnew, hfull⟩ := Classical.not_imp.mp hroom
        rw [enter_full hfits hnew (not_lt.mp hfull)]
        exact .full hnew (not_lt.mp hfull)

/-! ## The invariant -/

theorem Checked.found (h : request.Checked) (hassigned : assigned ≠ "") :
    (request.found now assigned).Valid where
  leader := ExtTreeMap.mem_iff_exists.mpr ⟨_, found_getElem?.mpr ⟨rfl, rfl⟩⟩
  unnamed := by
    rw [ExtTreeMap.mem_iff_exists]
    intro ⟨m, hm⟩
    -- the founder is the only member
    exact hassigned (found_getElem?.mp hm).1.symm
  size := by
    show ((∅ : Members).insert assigned (request.member now 1)).size ≤ _
    apply ExtTreeMap.size_insert_le.trans
    show (0 : Nat) + 1 ≤ maxGroupMembers
    decide
  -- what the request brings was checked against the limit for one member
  protocolBytes := by
    show ((∅ : Members).insert assigned (request.member now 1)).weight _ ≤ _
    rw [ExtTreeMap.weight_insert]
    have hweight := h.weight
    have hempty := ExtTreeMap.weight_erase_le (t := (∅ : Members))
      (f := (protocolWeight ·.protocols)) assigned
    have hzero : (∅ : Members).weight (protocolWeight ·.protocols) = 0 := rfl
    have hle : maxMemberProtocolBytes ≤ maxGroupProtocolBytes := by decide
    show protocolWeight request.protocols + _ ≤ _
    omega
  assignmentBytes := by
    show ((∅ : Members).insert assigned (request.member now 1)).weight _ ≤ _
    rw [ExtTreeMap.weight_insert]
    have hempty := ExtTreeMap.weight_erase_le (t := (∅ : Members))
      (f := (assignmentWeight ·.assignment)) assigned
    have hzero : (∅ : Members).weight (assignmentWeight ·.assignment) = 0 := rfl
    show 0 + _ ≤ _
    omega
  -- any protocol of the founder will do
  common := by
    obtain ⟨protocol, hprotocol⟩ := List.exists_mem_of_ne_nil _ h.nonempty
    refine ⟨protocol.name, fun id m hid => ?_⟩
    obtain ⟨-, rfl⟩ := found_getElem?.mp hid
    exact List.any_eq_true.mpr ⟨protocol, hprotocol, beq_self_eq_true _⟩
  generation_nonneg := le_rfl
  generation_le := by
    show (0 : Int) ≤ i32Max
    decide
  joined_le := fun id m hid => by
    obtain ⟨-, rfl⟩ := found_getElem?.mp hid
    exact le_rfl
  rejoin_pos := fun id m hid => by
    obtain ⟨-, rfl⟩ := found_getElem?.mp hid
    exact h.rejoin_pos
  rejoin_le := fun id m hid => by
    obtain ⟨-, rfl⟩ := found_getElem?.mp hid
    exact h.rejoin_le
  rebalance := rfl
  -- nobody has an assignment yet
  joining := fun _ => ⟨rfl, fun id m hid => by
    obtain ⟨-, rfl⟩ := found_getElem?.mp hid
    exact ⟨rfl, rfl⟩⟩
  announced := fun hne => absurd rfl hne
  awaiting := nofun
  stable := nofun

/-- What the group retains besides the member fits the budget. -/
theorem others_weight_le (h : g.Valid) (hchecked : request.Checked)
    (hfits : request.validateFor g = .ok ()) :
    protocolWeight request.protocols + ((g.rejoining now).members.erase
      (request.idFor assigned)).weight (protocolWeight ·.protocols) ≤ maxGroupProtocolBytes := by
  obtain ⟨f, hmap⟩ := GroupState.rejoining_mapped (g := g) now
  have hbudget := validateGroupProtocolBudget_le hchecked.weight (validateFor_spec hfits).2.2
  have hmapped : ((g.members.erase (request.idFor assigned)).map f).weight
      (protocolWeight ·.protocols) ≤
      (g.members.erase (request.idFor assigned)).weight (protocolWeight ·.protocols) := by
    apply ExtTreeMap.weight_map_le
    intro id m _
    exact (congrArg protocolWeight (hmap.protocols id m)).le
  rw [hmap.members, ExtTreeMap.erase_map]
  by_cases hnew : request.memberId = ""
  · -- nobody has the empty id, so that nobody was left out of the budget
    rw [hnew, ExtTreeMap.erase_of_notMem h.unnamed] at hbudget
    have hother := ExtTreeMap.weight_erase_le (t := g.members)
      (f := (protocolWeight ·.protocols)) (request.idFor assigned)
    omega
  · have hid : request.idFor assigned = request.memberId := if_neg hnew
    rw [hid] at hmapped ⊢
    omega

theorem Checked.registered (h : g.Valid) (hchecked : request.Checked) (hassigned : assigned ≠ "")
    (hfits : request.validateFor g = .ok ())
    (hroom : request.memberId = "" → g.members.size < maxGroupMembers) :
    (request.registered now (request.idFor assigned) (g.rejoining now)).Valid := by
  -- the rebalance keeps the members, so that the request meets the group it was checked against
  obtain ⟨f, hmap⟩ := GroupState.rejoining_mapped (g := g) now
  obtain ⟨hmember, hcompatible, -⟩ := validateFor_spec hfits
  have hk := h.rejoining now
  have hphase : (g.rejoining now).phase = .joining := GroupState.rejoining_phase
  exact
  { leader := by
      show (g.rejoining now).leaderId ∈ (g.rejoining now).members.insert _ _
      rw [ExtTreeMap.mem_insert]
      exact .inr hk.leader
    unnamed := by
      rw [ExtTreeMap.mem_iff_exists]
      intro ⟨m, hm⟩
      obtain ⟨heq, -⟩ | ⟨-, hm⟩ := registered_getElem?.mp hm
      · exact request.idFor_ne hassigned heq.symm
      · exact hk.unnamed (ExtTreeMap.mem_iff_exists.mpr ⟨m, hm⟩)
    size := by
      show ((g.rejoining now).members.insert (request.idFor assigned) _).size ≤ _
      unfold idFor
      split
      -- a new member takes a place that was free
      · rename_i hnew
        have hlt := hroom hnew
        apply ExtTreeMap.size_insert_le.trans
        rw [hmap.members, ExtTreeMap.size_map]
        omega
      -- a known member takes its own place again
      · rename_i hold
        have hin : request.memberId ∈ (g.rejoining now).members := by
          rw [hmap.members, ExtTreeMap.mem_map]
          exact hmember hold
        rw [ExtTreeMap.size_insert, if_pos (ExtTreeMap.mem_iff_contains.mp hin)]
        exact hk.size
    protocolBytes := by
      show ((g.rejoining now).members.insert (request.idFor assigned) _).weight _ ≤ _
      rw [ExtTreeMap.weight_insert]
      exact others_weight_le h hchecked hfits
    assignmentBytes := by
      -- the member loses its assignment
      show ((g.rejoining now).members.insert (request.idFor assigned) _).weight _ ≤ _
      rw [ExtTreeMap.weight_insert]
      have hle := ExtTreeMap.weight_erase_le (t := (g.rejoining now).members)
        (f := (assignmentWeight ·.assignment)) (request.idFor assigned)
      have := hk.assignmentBytes
      show 0 + _ ≤ _
      omega
    -- some protocol is offered by the request and by all others
    common := by
      obtain ⟨name, hown, hothers⟩ := protocolsCompatible_spec hcompatible
      refine ⟨name, fun id m hid => ?_⟩
      obtain ⟨-, rfl⟩ | ⟨hne, hid⟩ := registered_getElem?.mp hid
      · exact hown
      · obtain ⟨m', hm', rfl⟩ := hmap.getElem?.mp hid
        rw [hmap.protocols]
        apply hothers id m' hm'
        rintro rfl
        -- the candidate is the member that was put on file, or nobody
        by_cases hnew : request.memberId = ""
        · exact h.unnamed (ExtTreeMap.mem_iff_exists.mpr ⟨m', hnew ▸ hm'⟩)
        · exact hne (if_neg hnew).symm
    -- everything else is as the rebalance has left it
    generation_nonneg := hk.generation_nonneg
    generation_le := hk.generation_le
    joined_le := fun id m hid => by
      obtain ⟨-, rfl⟩ | ⟨-, hid⟩ := registered_getElem?.mp hid
      · exact le_rfl
      · exact hk.joined_le id m hid
    rejoin_pos := fun id m hid => by
      obtain ⟨-, rfl⟩ | ⟨-, hid⟩ := registered_getElem?.mp hid
      · exact hchecked.rejoin_pos
      · exact hk.rejoin_pos id m hid
    rejoin_le := fun id m hid => by
      obtain ⟨-, rfl⟩ | ⟨-, hid⟩ := registered_getElem?.mp hid
      · exact hchecked.rejoin_le
      · exact hk.rejoin_le id m hid
    rebalance := hk.rebalance
    joining := fun _ => by
      obtain ⟨hname, hnone⟩ := hk.joining hphase
      refine ⟨hname, fun id m hid => ?_⟩
      obtain ⟨-, rfl⟩ | ⟨-, hid⟩ := registered_getElem?.mp hid
      · exact ⟨rfl, rfl⟩
      · exact hnone id m hid
    announced := fun hne => absurd hphase hne
    awaiting := fun hawaiting => by
      have heq : (g.rejoining now).phase = .awaitingSync := hawaiting
      rw [hphase] at heq
      cases heq
    stable := fun hstable => by
      have heq : (g.rejoining now).phase = .stable := hstable
      rw [hphase] at heq
      cases heq }

/-- The first section of `join` keeps the invariant. -/
theorem Entered.valid {s s' : Option GroupState} {r : Except Halt (String × Nat)}
    (hentered : Entered request now assigned s r s') (h : ∀ g, s = some g → g.Valid)
    (hchecked : request.Checked) (hassigned : assigned ≠ "") :
    ∀ g, s' = some g → g.Valid := by
  cases hentered with
  | founded new =>
    rintro _ ⟨⟩
    exact hchecked.found hassigned
  | unknown old => exact nofun
  | rejected e why => exact h
  | full new why => exact h
  | accepted fits room =>
    rintro _ ⟨⟩
    exact hchecked.registered (h _ rfl) hassigned fits room

end JoinRequest

end Walstream.Group

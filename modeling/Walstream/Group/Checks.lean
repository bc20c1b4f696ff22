import Walstream.Group.Rebalancing

/-!
# What the checks on requests guarantee

The bounds that the checks of `join` and `sync` put on what a group retains, and what it
means that a protocol list is compatible with a group and that assignments are exact.
-/

namespace Walstream.Group

open Interaction Log
open Std (ExtTreeMap)

/-! ## Protocols -/

theorem protocolBytesFrom_eq {protocols : List JoinProtocol} {total bytes : Nat}
    (h : protocolBytesFrom total protocols = some bytes) :
    bytes = total + protocolWeight protocols := by
  induction protocols generalizing total with
  | nil =>
    cases h
    rfl
  | cons protocol protocols ih =>
    simp only [protocolBytesFrom, checkedAddU64, Option.bind_eq_bind] at h
    split at h
    · simp only [Option.bind_some] at h
      split at h
      · have hrest := ih h
        simp only [protocolWeight, List.map_cons, List.sum_cons] at hrest ⊢
        omega
      · cases h
    · cases h

/-- The loop over the members adds up the protocols of everybody but the candidate. -/
theorem validateBudgetFrom_le {candidateId : String} {members : List (String × MemberState)}
    {retained : Nat} (hretained : retained ≤ maxGroupProtocolBytes)
    (h : validateBudgetFrom candidateId retained members = .ok ()) :
    retained + ((members.filter fun p => decide (p.1 ≠ candidateId)).map fun p =>
      protocolWeight p.2.protocols).sum ≤ maxGroupProtocolBytes := by
  -- over the members that are left, with what has been added up so far
  induction members generalizing retained with
  | nil => simpa using hretained
  | cons p members ih =>
    obtain ⟨id, m⟩ := p
    unfold validateBudgetFrom at h
    -- the candidate itself does not count
    by_cases heq : id = candidateId
    · rw [if_pos heq] at h
      simpa [heq] using ih hretained h
    · rw [if_neg heq] at h
      simp only [bind_eq_ok, okOr_eq_ok, rejectIf_eq_ok, not_lt] at h
      obtain ⟨bytes, hbytes, total, htotal, _, hle, hrest⟩ := h
      have hweight := protocolBytesFrom_eq hbytes
      -- the sum has not overflowed
      have hsum : retained + bytes = total := by
        unfold checkedAddU64 at htotal
        split at htotal
        · exact Option.some.inj htotal
        · cases htotal
      have := ih hle hrest
      have hpos : decide ((id, m).1 ≠ candidateId) = true := decide_eq_true heq
      rw [List.filter_cons, if_pos hpos, List.map_cons, List.sum_cons]
      show retained + (protocolWeight m.protocols + _) ≤ _
      omega

theorem validateEachProtocol_le {protocols : List JoinProtocol} {names : List String}
    {retained : Nat} (hretained : retained ≤ maxMemberProtocolBytes)
    (h : validateEachProtocol names retained protocols = .ok ()) :
    retained + protocolWeight protocols ≤ maxMemberProtocolBytes := by
  induction protocols generalizing names retained with
  | nil => simpa [protocolWeight] using hretained
  | cons protocol protocols ih =>
    simp only [validateEachProtocol, bind_eq_ok, okOr_eq_ok, rejectIf_eq_ok, not_lt,
      checkedAddU64] at h
    obtain ⟨_, -, total, htotal, total', htotal', _, hle, hrest⟩ := h
    have := ih hle hrest
    simp only [protocolWeight, List.map_cons, List.sum_cons] at this ⊢
    split at htotal
    · split at htotal'
      · cases htotal
        cases htotal'
        omega
      · cases htotal'
    · cases htotal

theorem validateProtocols_spec {protocolType : String} {protocols : List JoinProtocol}
    (h : validateProtocols protocolType protocols = .ok ()) :
    protocols ≠ [] ∧ protocolWeight protocols ≤ maxMemberProtocolBytes := by
  simp only [validateProtocols, bind_eq_ok, rejectIf_eq_ok, not_or] at h
  obtain ⟨_, ⟨-, hne, -⟩, hall⟩ := h
  have := validateEachProtocol_le (Nat.zero_le _) hall
  exact ⟨hne, by omega⟩

/-- A list of protocols within a member's bounds that passes the group's check fits the
group's bound. -/
theorem validateGroupProtocolBudget_le {g : GroupState} {candidateId : String}
    {protocols : List JoinProtocol} (hown : protocolWeight protocols ≤ maxMemberProtocolBytes)
    (h : validateGroupProtocolBudget g candidateId protocols = .ok ()) :
    protocolWeight protocols + (g.members.erase candidateId).weight (protocolWeight ·.protocols) ≤
      maxGroupProtocolBytes := by
  simp only [validateGroupProtocolBudget, bind_eq_ok, okOr_eq_ok] at h
  obtain ⟨bytes, hbytes, hrest⟩ := h
  have hweight := protocolBytesFrom_eq hbytes
  have hle : bytes ≤ maxGroupProtocolBytes := by
    unfold maxMemberProtocolBytes at hown
    unfold maxGroupProtocolBytes
    omega
  have hsum := validateBudgetFrom_le hle hrest
  unfold ExtTreeMap.weight
  rw [((ExtTreeMap.toList_erase_perm candidateId).map _).sum_eq]
  show _ + (List.map (fun p : String × MemberState => protocolWeight p.2.protocols) _).sum ≤ _
  omega

/-- With a compatible candidate the group still has a common protocol. -/
theorem protocolsCompatible_spec {g : GroupState} {candidateId : String}
    {protocols : List JoinProtocol} (h : protocolsCompatible g candidateId protocols = true) :
    ∃ name, offers protocols name = true ∧ ∀ (id : String) m, g.members[id]? = some m →
      id ≠ candidateId → offers m.protocols name = true := by
  obtain ⟨choice, -, hchoice⟩ := List.any_eq_true.mp h
  rw [Bool.and_eq_true] at hchoice
  refine ⟨choice.name, hchoice.1, fun id m hid hne => ?_⟩
  have hmember := ExtTreeMap.all_toList.mp hchoice.2 id m hid
  simpa [hne] using hmember

/-! ## Assignments -/

theorem validateEachAssignment_le {assignments : List SyncAssignment} {ids : List String}
    {retained : Nat} (hretained : retained ≤ maxGroupAssignmentBytes)
    (h : validateEachAssignment ids retained assignments = .ok ()) :
    retained + (assignments.map fun a => a.assignment.length).sum ≤ maxGroupAssignmentBytes := by
  induction assignments generalizing ids retained with
  | nil => simpa using hretained
  | cons assignment assignments ih =>
    simp only [validateEachAssignment, bind_eq_ok, okOr_eq_ok, rejectIf_eq_ok, not_lt,
      checkedAddU64] at h
    obtain ⟨_, -, _, -, total, htotal, total', htotal', _, hle, hrest⟩ := h
    have := ih hle hrest
    simp only [List.map_cons, List.sum_cons] at this ⊢
    split at htotal
    · split at htotal'
      · cases htotal
        cases htotal'
        omega
      · cases htotal'
    · cases htotal

theorem validateAssignments_le {assignments : List SyncAssignment}
    (h : validateAssignments assignments = .ok ()) :
    (assignments.map fun a => a.assignment.length).sum ≤ maxGroupAssignmentBytes := by
  simp only [validateAssignments, bind_eq_ok, rejectIf_eq_ok] at h
  obtain ⟨_, -, hall⟩ := h
  have := validateEachAssignment_le (Nat.zero_le _) hall
  omega

/-- Exact assignments are for the members of the group, and no heavier than what was sent. -/
theorem exactAssignments_spec {g : GroupState} {assignments : List SyncAssignment}
    {installed : ExtTreeMap String (List UInt8) compare}
    (h : exactAssignments g assignments = .ok installed) :
    installed.keys.Perm g.members.keys ∧
      installed.weight List.length ≤ (assignments.map fun a => a.assignment.length).sum := by
  simp only [exactAssignments, bind_eq_ok, rejectIf_eq_ok, not_not, not_or] at h
  obtain ⟨_, hlength, _, ⟨hsize, hkeys⟩, heq⟩ := h
  cases heq
  refine ⟨ExtTreeMap.keys_perm_of_subset (hsize.trans hlength) fun id hid => ?_, ?_⟩
  · by_contra hnot
    apply hkeys
    refine List.any_eq_true.mpr ⟨id, hid, ?_⟩
    rw [Bool.not_eq_true', Bool.eq_false_iff]
    exact fun hmem => hnot (ExtTreeMap.mem_iff_contains.mpr hmem)
  · have hle := ExtTreeMap.weight_ofList_le (f := List.length)
      (assignments.map fun a => (a.memberId, a.assignment))
    rw [List.map_map] at hle
    exact hle

theorem exactAssignments_getElem? {g : GroupState} {assignments : List SyncAssignment}
    {installed : ExtTreeMap String (List UInt8) compare}
    (h : exactAssignments g assignments = .ok installed) (id : String) :
    id ∈ installed ↔ id ∈ g.members := by
  rw [← ExtTreeMap.mem_keys, ← ExtTreeMap.mem_keys]
  exact (exactAssignments_spec h).1.mem_iff

/-- They are what was sent, which has one assignment for each member. -/
theorem exactAssignments_exact {g : GroupState} {assignments : List SyncAssignment}
    {installed : ExtTreeMap String (List UInt8) compare}
    (h : exactAssignments g assignments = .ok installed) :
    (assignments.map (·.memberId)).Nodup ∧
      ∀ id assignment, installed[id]? = some assignment ↔ ⟨id, assignment⟩ ∈ assignments := by
  simp only [exactAssignments, bind_eq_ok, rejectIf_eq_ok, not_not, not_or] at h
  obtain ⟨_, -, _, ⟨hsize, -⟩, heq⟩ := h
  cases heq
  have hfst : (assignments.map fun a => (a.memberId, a.assignment)).map Prod.fst =
      assignments.map (·.memberId) := List.map_map
  have hnodup := ExtTreeMap.nodup_of_size_ofList
    (l := assignments.map fun a => (a.memberId, a.assignment)) (by rw [List.length_map, hsize])
  refine ⟨hfst ▸ hnodup, fun id assignment => ?_⟩
  rw [ExtTreeMap.getElem?_ofList_iff hnodup, List.mem_map]
  constructor
  · rintro ⟨a, ha, heq⟩
    cases heq
    exact ha
  · intro ha
    exact ⟨_, ha, rfl⟩

end Walstream.Group

import Walstream.Group.Invariants

/-!
# What a section changes

Most of what a section can come to leaves its slot as it is, and hears of nobody; what is left is
a few changes (`Stage.Changed`). Whether `advance_group` is about to start a rebalance or to
complete one, and whether a join is about to be put on file, can be told from the group before.
-/

namespace Walstream.Group

open Interaction Log
open Std (ExtTreeMap)

variable {now : Nat} {assigned : String} {stage : Stage} {g : GroupState} {s s' : Option GroupState}

/-! ## What is due -/

namespace GroupState

/-- `advance_group` starts a rebalance: a session or the time to sync is over, and somebody is
left. -/
def due (g : GroupState) (now : Nat) : Bool :=
  g.phase != .joining && !g.members.toList.all (fun p => p.2.deadline ≤ now) &&
    (!g.members.toList.all (fun p => now < p.2.deadline) ||
      g.phase == .awaitingSync && decide (g.phaseDeadline ≤ now))

/-- `advance_group` completes the rebalance. -/
def completes (g : GroupState) (now : Nat) : Bool :=
  g.phase == .joining && !(g.lasting now).members.isEmpty &&
    allJoined (g.lasting now).members g.rebalanceId && decide (g.generationId < i32Max)

theorem due_of_restarted (hphase : g.phase ≠ .joining)
    (hleft : ∃ (id : String) (m : MemberState), g.members[id]? = some m ∧ now < m.deadline)
    (hwhy : (∃ (id : String) (m : MemberState), g.members[id]? = some m ∧ m.deadline ≤ now) ∨
      g.phase = .awaitingSync ∧ g.phaseDeadline ≤ now) : g.due now = true := by
  obtain ⟨id, m, hid, hlive⟩ := hleft
  have hsome : ¬ g.members.toList.all (fun p => decide (p.2.deadline ≤ now)) = true := by
    rw [ExtTreeMap.all_toList]
    intro hall
    have hover : m.deadline ≤ now := of_decide_eq_true (hall id m hid)
    omega
  have hlate : ¬ g.members.toList.all (fun p => decide (now < p.2.deadline)) = true ∨
      g.phase = .awaitingSync ∧ g.phaseDeadline ≤ now := by
    refine hwhy.imp_left ?_
    rintro ⟨id', m', hid', hdead⟩ hall
    rw [ExtTreeMap.all_toList] at hall
    have hlive' : now < m'.deadline := of_decide_eq_true (hall id' m' hid')
    omega
  simp only [due, Bool.and_eq_true, Bool.or_eq_true, Bool.not_eq_true', ← Bool.not_eq_true,
    bne_iff_ne, beq_iff_eq, decide_eq_true_eq]
  exact ⟨⟨hphase, hsome⟩, hlate⟩

theorem completes_of_completed (hphase : g.phase = .joining)
    (hleft : ∃ (id : String) (m : MemberState), (g.lasting now).members[id]? = some m)
    (hjoined : ∀ (id : String) m, (g.lasting now).members[id]? = some m →
      m.joinedRebalance = g.rebalanceId)
    (hroom : g.generationId < i32Max) : g.completes now = true := by
  obtain ⟨id, m, hid⟩ := hleft
  have hsome : ¬ (g.lasting now).members.isEmpty = true := by
    rw [ExtTreeMap.isEmpty_iff_forall]
    intro hnone
    rw [hnone id] at hid
    cases hid
  have hall : allJoined (g.lasting now).members g.rebalanceId = true := by
    unfold allJoined
    rw [ExtTreeMap.all_toList]
    intro id' m' hid'
    exact beq_iff_eq.mpr (hjoined id' m' hid')
  simp only [completes, Bool.and_eq_true, Bool.not_eq_true', ← Bool.not_eq_true, beq_iff_eq,
    decide_eq_true_eq]
  exact ⟨⟨⟨hphase, hsome⟩, hall⟩, hroom⟩

end GroupState

/-- The state that the rest of a section finds, unless `advance_group` fails. -/
def reached (now : Nat) (s : Option GroupState) : Option (Option GroupState) :=
  match (advanceGroup now).exec s with
  | (.ok _, s') => some s'
  | (.error _, _) => none

theorem reached_of_exec {changed : Bool} (h : (advanceGroup now).exec s = (.ok changed, s')) :
    reached now s = some s' := by
  rw [reached, h]

/-- The request is put on file when it is applied to this state of its slot. -/
def JoinRequest.fits (request : JoinRequest) : Option GroupState → Bool
  | none => request.memberId == ""
  | some g => (request.validateFor g).isOk &&
    (request.memberId != "" || decide (g.members.size < maxGroupMembers))

theorem JoinRequest.fits_of_accepted {request : JoinRequest}
    (hfits : request.validateFor g = .ok ())
    (hroom : request.memberId = "" → g.members.size < maxGroupMembers) :
    request.fits (some g) = true := by
  have hnew : request.memberId ≠ "" ∨ g.members.size < maxGroupMembers := by
    by_cases h : request.memberId = ""
    · exact .inr (hroom h)
    · exact .inl h
  simp only [fits, hfits, Bool.and_eq_true, Bool.or_eq_true, bne_iff_ne, decide_eq_true_eq]
  exact ⟨rfl, hnew⟩

/-! ## Changes -/

/-- The changes that a section makes after its `advance_group`, and the member that it hears
of. -/
inductive Stage.Changed (now : Nat) (assigned : String) :
    Stage → Option GroupState → Option String → Option GroupState → Prop where
  /-- A member founds the group. -/
  | founded {request : JoinRequest} (new : request.memberId = "") :
      Changed now assigned (.enter request) none (some assigned)
        (some (request.found now assigned))
  /-- A member joins a rebalance. -/
  | joined {request : JoinRequest} {g : GroupState} (fits : request.validateFor g = .ok ())
      (room : request.memberId = "" → g.members.size < maxGroupMembers) :
      Changed now assigned (.enter request) (some g) (some (request.idFor assigned))
        (some (request.registered now (request.idFor assigned) (g.rejoining now)))
  /-- The assignments of the leader are installed. -/
  | installed {generationId : Int} {id : String} {assignments : List SyncAssignment}
      {submitted : Bool} {g : GroupState} (installed : ExtTreeMap String (List UInt8) compare)
      (phase : g.phase = .awaitingSync) :
      Changed now assigned (.sync generationId id assignments submitted) (some g) (some id)
        (some ((g.install now installed).touch now id))
  /-- A sync or a heartbeat of a member. -/
  | touched {stage : Stage} {g : GroupState} (id : String)
      (other : ∀ request, stage ≠ .enter request) :
      Changed now assigned stage (some g) (some id) (some (g.touch now id))
  /-- The last member leaves. -/
  | deserted {id : String} {g : GroupState} : Changed now assigned (.leave id) (some g) none none
  /-- A member leaves, and the rebalance goes on. -/
  | remained {id : String} {g : GroupState} (phase : g.phase = .joining) :
      Changed now assigned (.leave id) (some g) none (some (g.without id))
  /-- A member leaves, and the rebalance is complete. -/
  | completed {id : String} {g : GroupState} (name : String) (phase : g.phase = .joining) :
      Changed now assigned (.leave id) (some g) none (some ((g.without id).finalized now name))
  /-- A member leaves, and the others rejoin. -/
  | restarted {id : String} {g : GroupState} (member : id ∈ g.members)
      (phase : g.phase ≠ .joining) :
      Changed now assigned (.leave id) (some g) none
        (some ((g.without id).restarted now (g.rebalanceId + 1)))

/-- **A section changes its slot in one of these ways**, or leaves it as it is. -/
theorem Stage.Done.changed {r : Except Halt Next} (hdone : Done now assigned stage s r s') :
    (s' = s ∧ stage.heard s r = none) ∨ Changed now assigned stage s (stage.heard s r) s' := by
  cases hdone with
  | enter entered =>
    -- a join changes the group when it founds it or is accepted
    cases entered with
    | founded new => exact .inr (.founded new)
    | unknown old => exact .inl ⟨rfl, rfl⟩
    | rejected e why => exact .inl ⟨rfl, rfl⟩
    | full new why => exact .inl ⟨rfl, rfl⟩
    | accepted fits room => exact .inr (.joined fits room)
  | settle => exact .inl ⟨rfl, rfl⟩
  | await awaited => exact .inl ⟨rfl, rfl⟩
  -- a sync is heard before it looks, but not while it waits
  | @sync generationId id assignments submitted s r s' synced =>
    cases synced with
    | gone => exact .inl ⟨rfl, by cases submitted <;> rfl⟩
    | rejected e => exact .inl ⟨rfl, by cases submitted <;> rfl⟩
    | installed installed first active phase leader exact told =>
      subst first
      exact .inr (.installed installed phase)
    | heard first active phase told =>
      subst first
      exact .inr (.touched id (by nofun))
    | looked again active phase told =>
      subst again
      exact .inl ⟨rfl, rfl⟩
  | @heartbeat generationId id s r s' beaten =>
    cases beaten with
    | rejected e why =>
      refine .inl ⟨rfl, ?_⟩
      simp only [heard, why]
      rfl
    | heard active =>
      refine .inr ?_
      simp only [heard, active]
      exact .touched id (by nofun)
  -- leaving removes the member, and what `advance_group` does then decides the rest
  | @leave id s r s' left =>
    have hnobody : (Stage.leave id).heard s r = none := by
      unfold heard
      rfl
    rw [hnobody]
    cases left with
    | gone => exact .inl ⟨rfl, rfl⟩
    | stranger absent => exact .inl ⟨rfl, rfl⟩
    | last member nobody => exact .inr .deserted
    | waiting member phase laggard => exact .inr (.remained phase)
    | completed name member phase left joined room offered => exact .inr (.completed name phase)
    | exhausted member phase left joined full => exact .inr (.remained phase)
    | restarted member phase left => exact .inr (.restarted member phase)
  | commit committing => exact .inl ⟨rfl, rfl⟩

/-- What a section that ends with its `advance_group` hears of nobody. -/
theorem Stage.heard_error {e : Halt} : stage.heard s (.error e) = none := by
  cases stage with
  | sync generationId id assignments submitted => cases submitted <;> rfl
  | _ => rfl

/-- **A whole section** lets the group advance, and may change what that leaves. -/
theorem Stage.run_changed (now : Nat) (assigned : String) (stage : Stage) (h : ValidSlot s)
    (hchecked : stage.Checked) : ∃ r s₁, (advanceGroup now).exec s = (r, s₁) ∧
      AdvancedSlot now s r s₁ ∧
      let out := (stage.run now assigned).exec s
      (out.2 = s₁ ∧ stage.heard s₁ out.1 = none) ∨
        reached now s = some s₁ ∧ Changed now assigned stage s₁ (stage.heard s₁ out.1) out.2 := by
  have hadvanced := advanceGroup_slot now h
  cases hexec : (advanceGroup now).exec s with
  | mk r s₁ =>
    rw [hexec] at hadvanced
    refine ⟨r, s₁, rfl, hadvanced, ?_⟩
    unfold run
    rw [Section.exec_bind, hexec]
    cases r with
    | error e => exact .inl ⟨rfl, heard_error⟩
    | ok changed =>
      have hdone : Done now assigned stage s₁ _ _ := body_done (hadvanced.valid h) hchecked
      exact hdone.changed.imp_right fun hchanged => ⟨reached_of_exec hexec, hchanged⟩

end Walstream.Group

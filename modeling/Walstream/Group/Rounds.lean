import Walstream.Group.Joining

/-!
# What the other operations do to a group

Everything that the sections of `sync`, `heartbeat`, `leave` and `commit` can come to from a
group that has the invariant, after their `advance_group`, and that they keep the invariant.
-/

namespace Walstream.Group

open Interaction Log
open Std (ExtTreeMap)

variable {g : GroupState} {now : Nat} {memberId : String}

/-! ## Changes that keep the outcome of the generation -/

namespace GroupState

theorem Mapped.roster {k : GroupState} {f : String → MemberState → MemberState}
    (hmap : g.Mapped k f) (name : String) : k.roster name = g.roster name := by
  unfold GroupState.roster
  rw [hmap.members, ExtTreeMap.toList_map, List.map_map]
  apply List.map_congr_left
  intro p _
  show JoinMember.mk p.1 _ = JoinMember.mk p.1 _
  rw [hmap.protocols]

/-- Members are told the same things before and after. -/
theorem Announced.mapped {k : GroupState} {f : String → MemberState → MemberState} {name : String}
    (h : g.Announced name) (hmap : g.Mapped k f) (hname : k.protocolName = g.protocolName)
    (hgeneration : k.generationId = g.generationId) (hrebalance : k.rebalanceId = g.rebalanceId)
    (hresult : ∀ id m, (f id m).joinResult = m.joinResult) : k.Announced name where
  name := hname.trans h.name
  offered := fun id m hid => by
    obtain ⟨m', hm', rfl⟩ := hmap.getElem?.mp hid
    rw [hmap.protocols]
    exact h.offered id m' hm'
  joined := fun id m hid => by
    obtain ⟨m', hm', rfl⟩ := hmap.getElem?.mp hid
    rw [hmap.joinedRebalance, hrebalance]
    exact h.joined id m' hm'
  result := fun id m hid => by
    obtain ⟨m', hm', rfl⟩ := hmap.getElem?.mp hid
    rw [hresult, hgeneration, hmap.leaderId, hmap.roster]
    exact h.result id m' hm'

/-! ### A member is heard of -/

theorem touch_mapped : g.Mapped (g.touch now memberId) fun id member =>
    if id = memberId then member.touched now else member where
  members := ExtTreeMap.modify_eq_map
  leaderId := rfl
  protocols := fun id m => by split <;> rfl
  rebalanceTimeout := fun id m => by split <;> rfl
  joinedRebalance := fun id m => by split <;> rfl
  rebalanceId := le_rfl

theorem touch_getElem? {id : String} {m : MemberState} :
    (g.touch now memberId).members[id]? = some m ↔ ∃ m', g.members[id]? = some m' ∧
      (if id = memberId then m'.touched now else m') = m := touch_mapped.getElem?

theorem touch_assignmentBytes : (g.touch now memberId).members.weight (assignmentWeight ·.assignment) ≤
    g.members.weight (assignmentWeight ·.assignment) := by
  rw [touch_mapped.members]
  apply ExtTreeMap.weight_map_le
  intro id m _
  split <;> exact le_rfl

/-- A condition on assignments and outcomes does not depend on who has been heard of. -/
theorem touch_forall {P : Option (List UInt8) → Option JoinOutcome → Prop}
    (h : ∀ (id : String) m, g.members[id]? = some m → P m.assignment m.joinResult) :
    ∀ (id : String) m, (g.touch now memberId).members[id]? = some m →
      P m.assignment m.joinResult := by
  intro id m hid
  obtain ⟨m', hm', rfl⟩ := touch_getElem?.mp hid
  split
  · exact h id m' hm'
  · exact h id m' hm'

theorem Valid.touch (h : g.Valid) : (g.touch now memberId).Valid where
  toSound := h.toSound.mapped touch_mapped (touch_assignmentBytes.trans h.assignmentBytes)
    h.generation_nonneg h.generation_le
  rebalance := h.rebalance
  joining := fun hphase =>
    ⟨(h.joining hphase).1, touch_forall (P := fun a r => a = none ∧ r = none) (h.joining hphase).2⟩
  announced := fun hphase => by
    obtain ⟨name, hname⟩ := h.announced hphase
    refine ⟨name, hname.mapped touch_mapped rfl rfl rfl fun id m => ?_⟩
    split <;> rfl
  awaiting := fun hphase => touch_forall (P := fun a _ => a = none) (h.awaiting hphase)
  stable := fun hphase => touch_forall (P := fun a _ => ∃ x, a = some x) (h.stable hphase)

/-! ### The leader's assignments are installed -/

theorem install_mapped {installed : ExtTreeMap String (List UInt8) compare} :
    g.Mapped (g.install now installed) fun id member =>
      member.installed now installed[id]? where
  members := rfl
  leaderId := rfl
  protocols := fun id m => by cases installed[id]? <;> rfl
  rebalanceTimeout := fun id m => by cases installed[id]? <;> rfl
  joinedRebalance := fun id m => by cases installed[id]? <;> rfl
  rebalanceId := le_rfl

/-- Every member gets the assignment under its id. -/
theorem install_getElem? {assignments : List SyncAssignment}
    {installed : ExtTreeMap String (List UInt8) compare}
    (hexact : exactAssignments g assignments = .ok installed) {id : String} {m : MemberState} :
    (g.install now installed).members[id]? = some m ↔ ∃ m' assignment, g.members[id]? = some m' ∧
      installed[id]? = some assignment ∧ m'.installed now (some assignment) = m := by
  rw [install_mapped.getElem?]
  constructor
  · intro ⟨m', hm', heq⟩
    have hmem : id ∈ installed :=
      (exactAssignments_getElem? hexact id).mpr (ExtTreeMap.mem_iff_exists.mpr ⟨m', hm'⟩)
    obtain ⟨assignment, hassignment⟩ := ExtTreeMap.mem_iff_exists.mp hmem
    rw [hassignment] at heq
    exact ⟨m', assignment, hm', hassignment, heq⟩
  · intro ⟨m', assignment, hm', hassignment, heq⟩
    rw [hassignment]
    exact ⟨m', hm', heq⟩

theorem install_assignmentBytes {assignments : List SyncAssignment}
    {installed : ExtTreeMap String (List UInt8) compare}
    (hexact : exactAssignments g assignments = .ok installed) :
    (g.install now installed).members.weight (assignmentWeight ·.assignment) =
      installed.weight List.length := by
  apply ExtTreeMap.weight_congr
  intro id
  cases hid : (g.install now installed).members[id]? with
  | none =>
    have hnot : id ∉ installed := by
      rw [exactAssignments_getElem? hexact, ← ExtTreeMap.mem_map (f := fun id member =>
        MemberState.installed member now installed[id]?), ExtTreeMap.mem_iff_exists]
      intro ⟨m, hm⟩
      rw [show (g.members.map _)[id]? = none from hid] at hm
      cases hm
    rw [ExtTreeMap.getElem?_eq_none hnot]
    rfl
  | some m =>
    obtain ⟨m', assignment, -, hassignment, rfl⟩ := (install_getElem? hexact).mp hid
    rw [hassignment]
    rfl

theorem Valid.install (h : g.Valid) (hphase : g.phase = .awaitingSync)
    {assignments : List SyncAssignment} {installed : ExtTreeMap String (List UInt8) compare}
    (hbytes : (assignments.map fun a => a.assignment.length).sum ≤ maxGroupAssignmentBytes)
    (hexact : exactAssignments g assignments = .ok installed) :
    (g.install now installed).Valid where
  toSound := by
    apply h.toSound.mapped install_mapped _ h.generation_nonneg h.generation_le
    rw [install_assignmentBytes hexact]
    exact (exactAssignments_spec hexact).2.trans hbytes
  rebalance := by
    have hr := h.rebalance
    show (g.rebalanceId : Int) = g.generationId + 0
    simpa [hphase] using hr
  joining := nofun
  announced := fun _ => by
    obtain ⟨name, hname⟩ := h.announced (by simp [hphase])
    refine ⟨name, hname.mapped install_mapped rfl rfl rfl fun id m => ?_⟩
    cases installed[id]? <;> rfl
  awaiting := nofun
  stable := fun _ id m hid => by
    obtain ⟨m', assignment, -, -, rfl⟩ := (install_getElem? hexact).mp hid
    exact ⟨assignment, rfl⟩

end GroupState

/-! ## `sync` -/

theorem activeGroup_spec {s : Option GroupState} {generationId : Int}
    (h : activeGroup s generationId memberId = .ok g) :
    s = some g ∧ memberId ∈ g.members ∧ g.generationId = generationId := by
  unfold activeGroup at h
  simp only [bind_eq_ok, okOr_eq_ok, rejectIf_eq_ok, not_not] at h
  obtain ⟨k, hk, _, hmember, _, hgeneration, heq⟩ := h
  cases heq
  exact ⟨hk, hmember, hgeneration⟩

/-- What a member of a group is told in a round of `sync`, of the group that the round leaves. -/
inductive Told (g : GroupState) (memberId : String) : SyncRound → Prop where
  | waiting (phase : g.phase = .awaitingSync) : Told g memberId .waiting
  | assigned (m : MemberState) (assignment : List UInt8) (phase : g.phase = .stable)
      (member : g.members[memberId]? = some m) (has : m.assignment = some assignment) :
      Told g memberId (.assigned assignment)

/-- Everything that a round of `sync` can come to. -/
inductive Synced (now : Nat) (generationId : Int) (memberId : String)
    (assignments : List SyncAssignment) (submitted : Bool) :
    Option GroupState → Except Halt SyncRound → Option GroupState → Prop where
  /-- There is no group any more. -/
  | gone : Synced now generationId memberId assignments submitted none (.ok .gone) none
  /-- The request does not fit the group. -/
  | rejected {g : GroupState} (e : CoordinatorError) :
      Synced now generationId memberId assignments submitted (some g) (.error (.error e)) (some g)
  /-- The leader's submission is installed. -/
  | installed {g : GroupState} {r : SyncRound}
      (installed : ExtTreeMap String (List UInt8) compare)
      (first : submitted = false)
      (active : activeGroup (some g) generationId memberId = .ok g)
      (phase : g.phase = .awaitingSync) (leader : g.leaderId = memberId)
      (exact : exactAssignments g assignments = .ok installed)
      (told : Told ((g.install now installed).touch now memberId) memberId r) :
      Synced now generationId memberId assignments submitted (some g) (.ok r)
        (some ((g.install now installed).touch now memberId))
  /-- The member is heard of. -/
  | heard {g : GroupState} {r : SyncRound} (first : submitted = false)
      (active : activeGroup (some g) generationId memberId = .ok g) (phase : g.phase ≠ .joining)
      (told : Told (g.touch now memberId) memberId r) :
      Synced now generationId memberId assignments submitted (some g) (.ok r)
        (some (g.touch now memberId))
  /-- The member has been heard of before. -/
  | looked {g : GroupState} {r : SyncRound} (again : submitted = true)
      (active : activeGroup (some g) generationId memberId = .ok g) (phase : g.phase ≠ .joining)
      (told : Told g memberId r) :
      Synced now generationId memberId assignments submitted (some g) (.ok r) (some g)

section Sync

variable {generationId : Int} {assignments : List SyncAssignment} {submitted : Bool}

/-- What the submission makes of a group. -/
inductive Taken (now : Nat) (g : GroupState) (memberId : String)
    (assignments : List SyncAssignment) : Except Halt Unit → GroupState → Prop where
  | rejected (e : CoordinatorError) : Taken now g memberId assignments (.error (.error e)) g
  | installed (installed : ExtTreeMap String (List UInt8) compare)
      (phase : g.phase = .awaitingSync) (leader : g.leaderId = memberId)
      (exact : exactAssignments g assignments = .ok installed) :
      Taken now g memberId assignments (.ok ()) (g.install now installed)
  | same : Taken now g memberId assignments (.ok ()) g

/-- All assignments are for members. -/
theorem mapM_expect_exec {l : List String}
    (h : ∀ id ∈ l, id ∈ g.members) {s : GroupState} :
    ∃ ms, (l.mapM fun id => expect (σ := GroupState) g.members[id]?
      "validated assignment member").exec s = (.ok ms, s) := by
  induction l with
  | nil => exact ⟨[], rfl⟩
  | cons id l ih =>
    obtain ⟨m, hm⟩ := ExtTreeMap.mem_iff_exists.mp (h id (by simp))
    obtain ⟨ms, hms⟩ := ih fun id hid => h id (by simp [hid])
    refine ⟨m :: ms, ?_⟩
    have hhead : (expect (σ := GroupState) g.members[id]? "validated assignment member").exec s =
        (.ok m, s) := by
      rw [hm]
      rfl
    simp only [List.mapM_cons, Section.exec_bind, hhead, hms, Section.exec_pure]

theorem takeAssignments_taken (hphase : g.phase ≠ .joining) :
    Taken now g memberId assignments ((takeAssignments now memberId assignments).exec g).1
      ((takeAssignments now memberId assignments).exec g).2 := by
  cases hg : g.phase with
  | joining => exact absurd hg hphase
  | awaitingSync =>
    unfold takeAssignments
    simp only [Section.exec_bind, Section.exec_get, hg]
    split
    · rename_i hleader
      cases hexact : exactAssignments g assignments with
      | error e =>
        simp only [Section.exec_bind, checked, Section.exec_check, Except.mapError]
        exact .rejected e
      | ok installed =>
        -- every assignment is for a member
        obtain ⟨ms, hms⟩ := mapM_expect_exec (g := g) (s := g)
          (l := installed.keys) fun id hid =>
            (exactAssignments_getElem? hexact id).mp (ExtTreeMap.mem_keys.mp hid)
        simp only [Section.exec_bind, checked, Section.exec_check, Except.mapError, hms,
          Section.exec_set]
        exact .installed installed hg hleader hexact
    · split
      · exact .rejected _
      · exact .same
  | stable =>
    unfold takeAssignments
    simp only [Section.exec_bind, Section.exec_get, hg]
    split
    · cases hexact : exactAssignments g assignments with
      | error e =>
        simp only [Section.exec_bind, checked, Section.exec_check, Except.mapError]
        exact .rejected e
      | ok proposed =>
        simp only [Section.exec_bind, checked, Section.exec_check, Except.mapError]
        split
        · exact .rejected _
        · exact .same
    · split
      · exact .rejected _
      · exact .same

/-- A member of a group that has been told the outcome has an assignment, or will get one. -/
theorem assignmentOf_told (h : g.Valid) (hphase : g.phase ≠ .joining)
    (hmember : memberId ∈ g.members) :
    ∃ r, (assignmentOf memberId).exec g = (.ok r, g) ∧ Told g memberId r := by
  obtain ⟨m, hm⟩ := ExtTreeMap.mem_iff_exists.mp hmember
  unfold assignmentOf
  simp only [Section.exec_bind, Section.exec_get, hm, expect, Section.orStop, Section.exec_pure]
  cases hg : g.phase with
  | joining => exact absurd hg hphase
  | awaitingSync => exact ⟨.waiting, rfl, .waiting hg⟩
  | stable =>
    obtain ⟨assignment, hassignment⟩ := h.stable hg memberId m hm
    rw [hassignment]
    exact ⟨.assigned assignment, rfl, .assigned m assignment hg hm hassignment⟩

theorem submit_exec {k : GroupState}
    (htaken : (takeAssignments now memberId assignments).exec g = (.ok (), k))
    (hmember : memberId ∈ k.members) :
    (submit now memberId assignments).exec g = (.ok (), k.touch now memberId) := by
  obtain ⟨m, hm⟩ := ExtTreeMap.mem_iff_exists.mp hmember
  unfold submit
  simp only [Section.exec_bind, htaken, Section.exec_get, hm, expect, Section.orStop,
    Section.exec_pure, Section.exec_modify]

/-- What is left of a round in which the member is heard of. -/
private theorem heard_exec {k : GroupState} (hphase : g.phase ≠ .joining)
    (htaken : (takeAssignments now memberId assignments).exec g = (.ok (), k))
    (hk : k.Valid) (hkphase : k.phase ≠ .joining) (hmember : memberId ∈ k.members) :
    ∃ r, (syncMember now memberId assignments false).exec g =
      (.ok r, k.touch now memberId) ∧ Told (k.touch now memberId) memberId r := by
  have htouched : memberId ∈ (k.touch now memberId).members := by
    rw [GroupState.touch_mapped.members, ExtTreeMap.mem_map]
    exact hmember
  obtain ⟨r, hr, htold⟩ := assignmentOf_told hk.touch hkphase htouched
  refine ⟨r, ?_, htold⟩
  unfold syncMember
  simp only [Section.exec_bind, Section.exec_get, if_neg hphase,
    Bool.not_false, if_true, submit_exec htaken hmember, hr]

/-- **What a round of `sync` can come to**, after its `advance_group`. -/
theorem syncRound_synced {s : Option GroupState} (h : ∀ g, s = some g → g.Valid)
    (hbytes : (assignments.map fun a => a.assignment.length).sum ≤ maxGroupAssignmentBytes) :
    Synced now generationId memberId assignments submitted s
      ((syncRound now generationId memberId assignments submitted).exec s).1
      ((syncRound now generationId memberId assignments submitted).exec s).2 := by
  cases s with
  | none => exact .gone
  -- the generation and the member are checked before anything is changed
  | some g =>
    unfold syncRound
    simp only [Section.exec_bind, Section.exec_get, Option.isNone_some, Bool.false_eq_true,
      if_false, checked, Section.exec_check]
    cases hactive : activeGroup (some g) generationId memberId with
    | error e => exact .rejected e
    | ok k =>
      obtain ⟨⟨⟩, hmember, -⟩ := activeGroup_spec hactive
      have hg := h g rfl
      simp only [Except.mapError, Section.exec_within]
      -- in a rebalance the member is told so
      by_cases hphase : g.phase = .joining
      · have hexec : (syncMember now memberId assignments submitted).exec g =
            (.error (.kafka .rebalanceInProgress), g) := by
          unfold syncMember
          simp only [Section.exec_bind, Section.exec_get, if_pos hphase, Section.exec_throw]
        rw [hexec]
        exact .rejected _
      cases submitted with
      -- a round after the submission looks without being heard
      | true =>
        obtain ⟨r, hr, htold⟩ := assignmentOf_told hg hphase hmember
        have hexec : (syncMember now memberId assignments true).exec g = (.ok r, g) := by
          unfold syncMember
          simp only [Section.exec_bind, Section.exec_get, if_neg hphase,
            Bool.not_true, Bool.false_eq_true, if_false, hr]
        rw [hexec]
        exact .looked rfl hactive hphase htold
      -- the first round takes the assignments, and what comes of that decides the answer
      | false =>
        obtain ⟨r, k, hexec, htaken⟩ : ∃ r k,
            (takeAssignments now memberId assignments).exec g = (r, k) ∧
              Taken now g memberId assignments r k :=
          ⟨_, _, rfl, takeAssignments_taken hphase⟩
        cases htaken with
        | rejected e =>
          have hround : (syncMember now memberId assignments false).exec g =
              (.error (.error e), g) := by
            unfold syncMember submit
            simp only [Section.exec_bind, Section.exec_get, if_neg hphase,
              Bool.not_false, if_true, hexec]
          rw [hround]
          exact .rejected e
        | installed installed hawaiting hleader hexact =>
          -- the members keep their ids, so that the caller is still there
          have hkept : memberId ∈ (g.install now installed).members := by
            rw [GroupState.install_mapped.members, ExtTreeMap.mem_map]
            exact hmember
          obtain ⟨r, hr, htold⟩ := heard_exec hphase hexec (hg.install hawaiting hbytes hexact)
            (fun hjoining => by cases hjoining) hkept
          rw [hr]
          exact .installed installed rfl hactive hawaiting hleader hexact htold
        -- assignments that are installed already are not replaced
        | same =>
          obtain ⟨r, hr, htold⟩ := heard_exec hphase hexec hg hphase hmember
          rw [hr]
          exact .heard rfl hactive hphase htold

theorem Synced.valid {s s' : Option GroupState} {r : Except Halt SyncRound}
    (hsynced : Synced now generationId memberId assignments submitted s r s')
    (h : ∀ g, s = some g → g.Valid)
    (hbytes : (assignments.map fun a => a.assignment.length).sum ≤ maxGroupAssignmentBytes) :
    ∀ g, s' = some g → g.Valid := by
  cases hsynced with
  | gone => exact nofun
  | rejected e => exact h
  | installed installed first active phase leader exact told =>
    rintro _ ⟨⟩
    exact ((h _ rfl).install phase hbytes exact).touch
  | heard first active phase told =>
    rintro _ ⟨⟩
    exact (h _ rfl).touch
  | looked again active phase told => exact h

end Sync

/-! ## `heartbeat` and `commit` -/

section Members

variable {generationId : Int} {commits : List OffsetCommit}

/-- Everything that `heartbeat` can come to. -/
inductive Beaten (now : Nat) (generationId : Int) (memberId : String) :
    Option GroupState → Except Halt Next → Option GroupState → Prop where
  /-- The caller is not a member of the generation. -/
  | rejected {s : Option GroupState} (e : CoordinatorError)
      (why : activeGroup s generationId memberId = .error e) :
      Beaten now generationId memberId s (.ok (.reply (.error e) s.isNone)) s
  /-- The member is heard of, and told whether it has to rejoin. -/
  | heard {g : GroupState} (active : activeGroup (some g) generationId memberId = .ok g) :
      Beaten now generationId memberId (some g)
        (.ok (.reply (if g.phase = .stable then .ok .done
          else .error (.kafka .rebalanceInProgress)) false))
        (some (g.touch now memberId))

/-- Everything that `commit` can come to before the store is touched; it leaves the group. -/
inductive Committing (generationId : Int) (memberId : String) (commits : List OffsetCommit) :
    Option GroupState → Except Halt Next → Prop where
  /-- The caller is not a member of the generation. -/
  | rejected {s : Option GroupState} (e : CoordinatorError)
      (why : activeGroup s generationId memberId = .error e) :
      Committing generationId memberId commits s (.ok (.reply (.error e) s.isNone))
  /-- The group is in a rebalance. -/
  | early {g : GroupState} (active : activeGroup (some g) generationId memberId = .ok g)
      (phase : g.phase ≠ .stable) :
      Committing generationId memberId commits (some g)
        (.ok (.reply (.error (.kafka .rebalanceInProgress)) false))
  /-- There is nothing to commit. -/
  | empty {g : GroupState} (active : activeGroup (some g) generationId memberId = .ok g)
      (phase : g.phase = .stable) (nothing : commits = []) :
      Committing generationId memberId commits (some g) (.ok (.reply (.ok .done) false))
  /-- The commits go to the store. -/
  | stored {g : GroupState} (active : activeGroup (some g) generationId memberId = .ok g)
      (phase : g.phase = .stable) (something : commits ≠ []) :
      Committing generationId memberId commits (some g) (.ok (.store commits))

/-- A member of a valid group waits for its assignment as long as the group is not stable. -/
theorem GroupState.Valid.unassigned_iff (h : g.Valid) {id : String} {m : MemberState}
    (hid : g.members[id]? = some m) :
    (g.phase ≠ .stable ∨ m.assignment = none) ↔ g.phase ≠ .stable := by
  constructor
  · intro hor hstable
    obtain ⟨assignment, hassignment⟩ := h.stable hstable id m hid
    obtain hne | hnone := hor
    · exact hne hstable
    · rw [hassignment] at hnone
      cases hnone
  · exact .inl

theorem heartbeatRound_beaten {s : Option GroupState} (h : ∀ g, s = some g → g.Valid) :
    Beaten now generationId memberId s ((heartbeatRound now generationId memberId).exec s).1
      ((heartbeatRound now generationId memberId).exec s).2 := by
  unfold heartbeatRound
  simp only [Section.exec_bind, Section.exec_get]
  cases hactive : activeGroup s generationId memberId with
  | error e => exact .rejected e hactive
  | ok g =>
    obtain ⟨rfl, hmember, -⟩ := activeGroup_spec hactive
    obtain ⟨m, hm⟩ := ExtTreeMap.mem_iff_exists.mp hmember
    have hheard : Beaten now generationId memberId (some g) _ _ := .heard hactive
    simp only [Section.exec_bind, hm, expect, Section.orStop, Section.exec_pure, Section.exec_set,
      (h g rfl).unassigned_iff hm]
    split
    · rename_i hphase
      rwa [if_neg hphase] at hheard
    · rename_i hphase
      rwa [if_pos (not_not.mp hphase)] at hheard

theorem commitRound_committing (generationId : Int) (memberId : String)
    (commits : List OffsetCommit) {s : Option GroupState} (h : ∀ g, s = some g → g.Valid) :
    ∃ r, (commitRound generationId memberId commits).exec s = (r, s) ∧
      Committing generationId memberId commits s r := by
  unfold commitRound
  simp only [Section.exec_bind, Section.exec_get]
  cases hactive : activeGroup s generationId memberId with
  | error e => exact ⟨_, rfl, .rejected e hactive⟩
  | ok g =>
    obtain ⟨rfl, hmember, -⟩ := activeGroup_spec hactive
    obtain ⟨m, hm⟩ := ExtTreeMap.mem_iff_exists.mp hmember
    simp only [Section.exec_bind, hm, expect, Section.orStop, Section.exec_pure,
      (h g rfl).unassigned_iff hm]
    split
    · rename_i hphase
      exact ⟨_, rfl, .early hactive hphase⟩
    · rename_i hphase
      have hstable := not_not.mp hphase
      split
      · rename_i hnothing
        exact ⟨_, rfl, .empty hactive hstable hnothing⟩
      · rename_i hsomething
        exact ⟨_, rfl, .stored hactive hstable hsomething⟩

theorem Beaten.valid {s s' : Option GroupState} {r : Except Halt Next}
    (hbeaten : Beaten now generationId memberId s r s') (h : ∀ g, s = some g → g.Valid) :
    ∀ g, s' = some g → g.Valid := by
  cases hbeaten with
  | rejected e why => exact h
  | heard active =>
    rintro _ ⟨⟩
    exact (h _ rfl).touch

end Members

/-! ## `leave` -/

section Leaving

/-- The group without one of its members. -/
def GroupState.without (g : GroupState) (memberId : String) : GroupState :=
  g.keep fun id _ => decide (id ≠ memberId)

theorem GroupState.without_getElem? {id : String} {m : MemberState} :
    (g.without memberId).members[id]? = some m ↔ id ≠ memberId ∧ g.members[id]? = some m := by
  unfold GroupState.without
  rw [GroupState.keep_getElem?, decide_eq_true_eq, and_comm]

/-- Everything that `leave` can come to. -/
inductive Left (now : Nat) (memberId : String) :
    Option GroupState → Except Halt Next → Option GroupState → Prop where
  /-- There is no group. -/
  | gone : Left now memberId none (.ok (.reply (.error (.kafka .unknownMemberId)) true)) none
  /-- The caller is not a member. -/
  | stranger {g : GroupState} (absent : memberId ∉ g.members) :
      Left now memberId (some g) (.ok (.reply (.error (.kafka .unknownMemberId)) false)) (some g)
  /-- The last member leaves. -/
  | last {g : GroupState} (member : memberId ∈ g.members)
      (nobody : ∀ (id : String) m, (g.without memberId).members[id]? ≠ some m) :
      Left now memberId (some g) (.ok (.reply (.ok .done) true)) none
  /-- The others go on to wait for the rebalance to complete. -/
  | waiting {g : GroupState} (member : memberId ∈ g.members) (phase : g.phase = .joining)
      (laggard : ∃ (id : String) (m : MemberState), (g.without memberId).members[id]? = some m ∧
        m.joinedRebalance ≠ g.rebalanceId) :
      Left now memberId (some g) (.ok (.reply (.ok .done) false)) (some (g.without memberId))
  /-- The rebalance is complete now. -/
  | completed {g : GroupState} (name : String) (member : memberId ∈ g.members)
      (phase : g.phase = .joining)
      (left : ∃ (id : String) (m : MemberState), (g.without memberId).members[id]? = some m)
      (joined : ∀ (id : String) m, (g.without memberId).members[id]? = some m →
        m.joinedRebalance = g.rebalanceId)
      (room : g.generationId < i32Max)
      (offered : ∀ (id : String) m, (g.without memberId).members[id]? = some m →
        offers m.protocols name = true) :
      Left now memberId (some g) (.ok (.reply (.ok .done) false))
        (some ((g.without memberId).finalized now name))
  /-- The rebalance is complete, and there is no number left for the generation. -/
  | exhausted {g : GroupState} (member : memberId ∈ g.members) (phase : g.phase = .joining)
      (left : ∃ (id : String) (m : MemberState), (g.without memberId).members[id]? = some m)
      (joined : ∀ (id : String) m, (g.without memberId).members[id]? = some m →
        m.joinedRebalance = g.rebalanceId)
      (full : g.generationId = i32Max) :
      Left now memberId (some g) (.error (.kafka .unknownServerError))
        (some (g.without memberId))
  /-- The others rejoin. -/
  | restarted {g : GroupState} (member : memberId ∈ g.members) (phase : g.phase ≠ .joining)
      (left : ∃ (id : String) (m : MemberState), (g.without memberId).members[id]? = some m) :
      Left now memberId (some g) (.ok (.reply (.ok .done) false))
        (some ((g.without memberId).restarted now (g.rebalanceId + 1)))

theorem GroupState.Sound.without (h : g.Sound)
    (hleft : ∃ (id : String) (m : MemberState), (g.without memberId).members[id]? = some m) :
    (g.without memberId).Sound := by
  obtain ⟨id, m, hid⟩ := hleft
  obtain ⟨hne, hm⟩ := GroupState.without_getElem?.mp hid
  exact h.keep ⟨id, m, hm, decide_eq_true hne⟩

theorem GroupState.Valid.without (h : g.Valid) (hphase : g.phase = .joining)
    (hleft : ∃ (id : String) (m : MemberState), (g.without memberId).members[id]? = some m) :
    (g.without memberId).Valid where
  toSound := h.toSound.without hleft
  rebalance := by simpa [GroupState.without] using h.rebalance
  joining := fun _ => by
    obtain ⟨hname, hmembers⟩ := h.joining hphase
    refine ⟨by simpa [GroupState.without] using hname, fun id m hid => ?_⟩
    exact hmembers id m (GroupState.without_getElem?.mp hid).2
  announced := fun hne => absurd (by simpa [GroupState.without] using hphase) hne
  awaiting := fun hawaiting => by simp [GroupState.without, hphase] at hawaiting
  stable := fun hstable => by simp [GroupState.without, hphase] at hstable

/-- The others get a new leader when the leader leaves. -/
theorem replaceLeader_exec (h : g.Sound)
    (hleft : ∃ (id : String) (m : MemberState), (g.without memberId).members[id]? = some m) :
    (replaceLeader memberId).exec { g with members := g.members.erase memberId } =
      (.ok (), g.without memberId) := by
  have hmembers : ({ g with members := g.members.erase memberId } : GroupState).elected =
      g.without memberId := by
    rw [ExtTreeMap.erase_eq_filter]
    rfl
  rw [← hmembers] at hleft ⊢
  obtain ⟨id, m, hid⟩ := hleft
  rw [GroupState.elected_members] at hid
  obtain ⟨first, hfirst, -⟩ := ExtTreeMap.exists_minKey?
    ⟨id, ExtTreeMap.mem_iff_exists.mpr ⟨m, hid⟩⟩
  have hiff : g.leaderId ∈ g.members.erase memberId ↔ g.leaderId ≠ memberId := by
    obtain ⟨leader, hleader⟩ := ExtTreeMap.mem_iff_exists.mp h.leader
    rw [ExtTreeMap.mem_iff_exists]
    simp only [ExtTreeMap.getElem?_erase_eq_some, hleader, exists_and_left, and_iff_left_iff_imp]
    exact fun _ => ⟨leader, rfl⟩
  unfold replaceLeader GroupState.elected
  simp only [Section.exec_bind, Section.exec_get, hiff]
  by_cases hleader : g.leaderId = memberId
  · simp only [hleader, if_true, Section.exec_bind, hfirst, expect, Section.orStop,
      Section.exec_pure, Section.exec_set, ne_eq, not_true_eq_false, if_false, Option.getD_some]
  · simp only [hleader, if_false, Section.exec_pure, ne_eq, not_false_eq_true, if_true]

/-- What is left of a group goes on. -/
private theorem goOn_left (h : g.Valid) (hmember : memberId ∈ g.members)
    (hleft : ∃ (id : String) (m : MemberState), (g.without memberId).members[id]? = some m) :
    Section.Gives (goOn now) (g.without memberId)
      (fun _ k => Left now memberId (some g) (.ok (.reply (.ok .done) false)) (some k))
      fun e k => Left now memberId (some g) (.error e) (some k) := by
  -- without the member the phase and the numbers are those of before
  have hsound := h.toSound.without hleft
  have hrebalance : (g.without memberId).rebalanceId = g.rebalanceId := by
    simp [GroupState.without]
  have hgeneration : (g.without memberId).generationId = g.generationId := by
    simp [GroupState.without]
  have hsame : (g.without memberId).phase = g.phase := by simp [GroupState.without]
  simp only [goOn, Section.gives_bind, Section.gives_get, hsame, hrebalance]
  -- a rebalance under way may be complete now
  by_cases hphase : g.phase = .joining
  · rw [if_pos hphase]
    by_cases hjoined : ∀ (id : String) m, (g.without memberId).members[id]? = some m →
        m.joinedRebalance = g.rebalanceId
    · have hall : allJoined (g.without memberId).members g.rebalanceId = true := by
        unfold allJoined
        rw [ExtTreeMap.all_toList]
        intro id m hid
        exact beq_iff_eq.mpr (hjoined id m hid)
      rw [if_pos hall]
      -- the generation may not have a successor
      by_cases hlt : g.generationId < i32Max
      · obtain ⟨name, hexec, hoffers⟩ := GroupState.finalizeRebalance_exec now hsound
          (by rwa [hgeneration])
        rw [Section.gives_of_ok hexec]
        exact .completed name hmember hphase hleft hjoined hlt hoffers
      · have heq : g.generationId = i32Max := by
          have := h.generation_le
          omega
        rw [Section.gives_of_error (GroupState.finalizeRebalance_exhausted hsound
          (by rwa [hgeneration]))]
        exact .exhausted hmember hphase hleft hjoined heq
    -- somebody has not rejoined yet
    · simp only [not_forall] at hjoined
      obtain ⟨id, m, hid, hne⟩ := hjoined
      have hall : ¬ allJoined (g.without memberId).members g.rebalanceId = true := by
        unfold allJoined
        rw [ExtTreeMap.all_toList]
        intro hall
        exact hne (beq_iff_eq.mp (hall id m hid))
      rw [if_neg hall, Section.gives_pure]
      exact .waiting hmember hphase ⟨id, m, hid, hne⟩
  -- a group that is not in a rebalance starts one
  · have hlt : (g.without memberId).rebalanceId + 1 ≤ u64Max := by
      rw [hrebalance]
      exact h.rebalance_lt
    rw [if_neg hphase, Section.gives_of_ok (GroupState.startRebalance_exec now hlt), hrebalance]
    exact .restarted hmember hphase hleft

/-- **What `leave` can come to**, after its `advance_group`. -/
theorem leaveRound_left (now : Nat) (memberId : String) {s : Option GroupState}
    (h : ∀ g, s = some g → g.Valid) :
    Section.Gives (leaveRound now memberId) s (fun next s' => Left now memberId s (.ok next) s')
      fun e s' => Left now memberId s (.error e) s' := by
  -- without a group there is nothing to leave
  cases s with
  | none =>
    show Left now memberId none _ none
    exact .gone
  | some g =>
    simp only [leaveRound, Section.gives_bind, Section.gives_get]
    by_cases hmember : memberId ∈ g.members
    · rw [if_neg (not_not.mpr hmember)]
      -- the member was the last one, or others are left
      by_cases hleft : ∃ (id : String) (m : MemberState), (g.without memberId).members[id]? = some m
      · have hempty : ¬ (g.members.erase memberId).isEmpty = true := by
          obtain ⟨id, m, hid⟩ := hleft
          rw [ExtTreeMap.isEmpty_iff_forall]
          intro hnone
          have hkept := ExtTreeMap.getElem?_erase_eq_some.mpr (GroupState.without_getElem?.mp hid)
          rw [hnone id] at hkept
          cases hkept
        rw [if_neg hempty]
        simp only [Section.gives_bind, Section.gives_within,
          Section.gives_of_ok (replaceLeader_exec (h g rfl).toSound hleft), Section.gives_pure]
        exact goOn_left (h g rfl) hmember hleft
      · simp only [not_exists] at hleft
        have hempty : (g.members.erase memberId).isEmpty = true := by
          rw [ExtTreeMap.isEmpty_iff_forall]
          intro id
          rw [Option.eq_none_iff_forall_ne_some]
          intro m hm
          exact hleft id m (GroupState.without_getElem?.mpr (ExtTreeMap.getElem?_erase_eq_some.mp hm))
        rw [if_pos hempty]
        simp only [Section.gives_bind, Section.gives_set, Section.gives_pure]
        exact .last hmember hleft
    · rw [if_pos hmember, Section.gives_pure]
      exact .stranger hmember

theorem Left.valid {s s' : Option GroupState} {r : Except Halt Next}
    (hleft : Left now memberId s r s') (h : ∀ g, s = some g → g.Valid) :
    ∀ g, s' = some g → g.Valid := by
  cases hleft with
  | gone => exact nofun
  | stranger absent => exact h
  | last member nobody => exact nofun
  | waiting member phase laggard =>
    -- in a rebalance a member may go without any other change
    rintro _ ⟨⟩
    obtain ⟨id, m, hid, -⟩ := laggard
    exact (h _ rfl).without phase ⟨id, m, hid⟩
  | completed name member phase left joined room offered =>
    -- with the next generation the members that are left get new assignments
    rintro _ ⟨⟩
    have hvalid := (h _ rfl).without phase left
    have hrebalance := hvalid.rebalance
    rw [if_pos (by simp [GroupState.without, phase])] at hrebalance
    exact hvalid.toSound.finalized (by simpa [GroupState.without] using room) hrebalance
      (by simpa [GroupState.without] using joined) offered
  | exhausted member phase left joined full =>
    rintro _ ⟨⟩
    exact (h _ rfl).without phase left
  | restarted member phase left =>
    -- outside a rebalance the members that are left start one
    rintro _ ⟨⟩
    have hrebalance := (h _ rfl).rebalance
    have hvalid := ((h _ rfl).toSound.without left).restarted now
      (by simpa [GroupState.without, phase] using hrebalance)
    simpa [GroupState.without] using hvalid

end Leaving

end Walstream.Group

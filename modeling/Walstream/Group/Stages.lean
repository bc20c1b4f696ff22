import Walstream.Group.Rounds

/-!
# Sections as a whole

What a section of any operation can come to: `advance_group` on the state of a slot
(`AdvancedSlot`), and after it the operation's own part (`Stage.Done`). Sections keep the
invariant of the group, and never panic.
-/

namespace Walstream.Group

open Interaction Log
open Std (ExtTreeMap)

variable {s s' : Option GroupState} {now : Nat} {assigned : String} {stage : Stage}

/-- The group of a slot, if there is one, has the invariant. -/
def ValidSlot (s : Option GroupState) : Prop := ∀ g, s = some g → g.Valid

/-! ## `advance_group` on a slot -/

/-- Everything that `advance_group` can come to on the state of a slot. -/
inductive AdvancedSlot (now : Nat) : Option GroupState → Except Halt Bool → Option GroupState → Prop where
  | empty : AdvancedSlot now none (.ok false) none
  | group {g : GroupState} {r : Except Halt Bool} {s' : Option GroupState}
      (advanced : Advanced now g r s') : AdvancedSlot now (some g) r s'

theorem advanceGroup_slot (now : Nat) (h : ValidSlot s) :
    AdvancedSlot now s ((advanceGroup now).exec s).1 ((advanceGroup now).exec s).2 := by
  cases s with
  | none => exact .empty
  | some g =>
    apply AdvancedSlot.group
    have hcases := Section.gives_def.mp (advanceGroup_cases now (h g rfl))
    cases hexec : (advanceGroup now).exec (some g) with
    | mk r s' =>
      cases r with
      | error e => exact hcases.2 e s' hexec
      | ok changed => exact hcases.1 changed s' hexec

theorem Advanced.valid {g : GroupState} {r : Except Halt Bool} (hadvanced : Advanced now g r s')
    (h : g.Valid) : ValidSlot s' := by
  cases hadvanced with
  | idle phase live time =>
    rintro _ ⟨⟩
    exact h
  | vanished dead => exact nofun
  -- what is left of the group starts a new rebalance
  | restarted phase left why =>
    rintro _ ⟨⟩
    obtain ⟨id, m, hid, hlive⟩ := left
    have hsound : (g.keep (alive now)).Sound := h.toSound.keep ⟨id, m, hid, decide_eq_true hlive⟩
    have hrebalance := h.rebalance
    have hvalid := hsound.restarted now (by simpa [phase] using hrebalance)
    simpa using hvalid
  | deserted phase time nobody => exact nofun
  -- some member has not rejoined, so that the group is not empty
  | waiting changed phase laggard =>
    rintro _ ⟨⟩
    obtain ⟨id, m, hid, -⟩ := laggard
    exact h.lasting phase ⟨id, m, hid⟩
  -- the rebalance is complete, and the next generation has its number
  | completed name phase left joined room offered =>
    rintro _ ⟨⟩
    have hvalid := h.lasting phase left
    have hrebalance := hvalid.rebalance
    rw [if_pos (by simpa using phase)] at hrebalance
    exact hvalid.toSound.finalized (by simpa using room) hrebalance (by simpa using joined) offered
  | exhausted phase left joined full =>
    rintro _ ⟨⟩
    exact h.lasting phase left

theorem AdvancedSlot.valid {r : Except Halt Bool} (hadvanced : AdvancedSlot now s r s')
    (h : ValidSlot s) : ValidSlot s' := by
  cases hadvanced with
  | empty => exact nofun
  | group advanced => exact advanced.valid (h _ rfl)

/-- `advance_group` fails only when generation numbers have run out. -/
theorem AdvancedSlot.error_eq {e : Halt} (hadvanced : AdvancedSlot now s (.error e) s') :
    e = .kafka .unknownServerError := by
  cases hadvanced with
  | group advanced =>
    cases advanced with
    | exhausted => rfl

/-! ## Waiting for the outcome of a join -/

/-- What a member that has joined this rebalance is told. -/
inductive Awaited (memberId : String) (rebalanceId : Nat) :
    Option GroupState → Except Halt Next → Prop where
  /-- There is no group any more. -/
  | gone : Awaited memberId rebalanceId none (.error (.kafka .unknownMemberId))
  /-- The group is in another rebalance. -/
  | superseded {g : GroupState} (other : g.rebalanceId ≠ rebalanceId) :
      Awaited memberId rebalanceId (some g) (.error (.kafka .rebalanceInProgress))
  /-- The member is gone. -/
  | removed {g : GroupState} (same : g.rebalanceId = rebalanceId) (absent : memberId ∉ g.members) :
      Awaited memberId rebalanceId (some g) (.error (.kafka .unknownMemberId))
  /-- The generation has its outcome. -/
  | told {g : GroupState} (m : MemberState) (outcome : JoinOutcome)
      (same : g.rebalanceId = rebalanceId) (member : g.members[memberId]? = some m)
      (result : m.joinResult = some outcome) :
      Awaited memberId rebalanceId (some g) (.ok (.reply (.ok (.joined outcome)) false))
  /-- The rebalance is not complete. -/
  | waiting {g : GroupState} (m : MemberState) (same : g.rebalanceId = rebalanceId)
      (member : g.members[memberId]? = some m) (result : m.joinResult = none) :
      Awaited memberId rebalanceId (some g) (.ok (.section (.await memberId rebalanceId)))

theorem await_awaited (memberId : String) (rebalanceId : Nat) :
    ∃ r, ((Stage.await memberId rebalanceId).body now assigned).exec s = (r, s) ∧
      Awaited memberId rebalanceId s r := by
  unfold Stage.body awaitOutcome
  simp only [Section.exec_bind, Section.exec_get, checked, Section.exec_check]
  cases s with
  | none => exact ⟨_, rfl, .gone⟩
  | some g =>
    simp only [okOr, Except.mapError]
    by_cases hsame : g.rebalanceId = rebalanceId
    · rw [if_neg (not_not.mpr hsame)]
      simp only [Section.exec_pure, Section.exec_check, Section.exec_bind]
      cases hm : g.members[memberId]? with
      | none =>
        refine ⟨_, rfl, .removed hsame ?_⟩
        rw [ExtTreeMap.mem_iff_exists, hm]
        simp
      | some m =>
        simp only
        cases hresult : m.joinResult with
        | none => exact ⟨_, rfl, .waiting m hsame hm hresult⟩
        | some outcome => exact ⟨_, rfl, .told m outcome hsame hm hresult⟩
    · rw [if_pos hsame]
      exact ⟨_, rfl, .superseded hsame⟩

/-! ## The operations -/

/-- What a section relies on of the request it works for. -/
def Stage.Checked : Stage → Prop
  | .enter request => request.Checked
  | .sync _ _ assignments _ =>
    (assignments.map fun a => a.assignment.length).sum ≤ maxGroupAssignmentBytes
  | _ => True

/-- Everything that the section of an operation can come to, after its `advance_group`. -/
inductive Stage.Done (now : Nat) (assigned : String) :
    Stage → Option GroupState → Except Halt Next → Option GroupState → Prop where
  | enter {request : JoinRequest} {s : Option GroupState} {r : Except Halt (String × Nat)}
      {s' : Option GroupState} (entered : request.Entered now assigned s r s') :
      Done now assigned (.enter request) s (r.map fun p => .section (.settle p.1 p.2)) s'
  | settle {id : String} {target : Nat} {s : Option GroupState} :
      Done now assigned (.settle id target) s (.ok (.section (.await id target))) s
  | await {id : String} {target : Nat} {s : Option GroupState} {r : Except Halt Next}
      (awaited : Awaited id target s r) : Done now assigned (.await id target) s r s
  | sync {generationId : Int} {id : String} {assignments : List SyncAssignment} {submitted : Bool}
      {s : Option GroupState} {r : Except Halt SyncRound} {s' : Option GroupState}
      (synced : Synced now generationId id assignments submitted s r s') :
      Done now assigned (.sync generationId id assignments submitted) s
        (r.map fun round => round.next generationId id assignments) s'
  | heartbeat {generationId : Int} {id : String} {s : Option GroupState} {r : Except Halt Next}
      {s' : Option GroupState} (beaten : Beaten now generationId id s r s') :
      Done now assigned (.heartbeat generationId id) s r s'
  | leave {id : String} {s : Option GroupState} {r : Except Halt Next} {s' : Option GroupState}
      (left : Left now id s r s') : Done now assigned (.leave id) s r s'
  | commit {generationId : Int} {id : String} {commits : List OffsetCommit}
      {s : Option GroupState} {r : Except Halt Next}
      (committing : Committing generationId id commits s r) :
      Done now assigned (.commit generationId id commits) s r s

/-- A section that goes on with a function of what another one returns. -/
theorem exec_map {α : Type} {x : Section (Option GroupState) Halt α} {f : α → Next} :
    (x >>= fun a => pure (f a)).exec s = ((x.exec s).1.map f, (x.exec s).2) := by
  rw [Section.exec_bind]
  cases x.exec s with
  | mk r s' => cases r <;> rfl

theorem Stage.body_done (h : ValidSlot s) (hchecked : stage.Checked) :
    Done now assigned stage s ((stage.body now assigned).exec s).1
      ((stage.body now assigned).exec s).2 := by
  -- one round of the coordinator for each kind of stage
  cases stage with
  | enter request =>
    have hexec : ((enter request).body now assigned).exec s =
        (((request.enter now assigned).exec s).1.map fun p => .section (.settle p.1 p.2),
          ((request.enter now assigned).exec s).2) := exec_map
    rw [hexec]
    exact .enter (JoinRequest.enter_entered h)
  -- the other two stages of a join look at the group only
  | settle id target => exact .settle
  | await id target =>
    obtain ⟨r, hexec, hawaited⟩ := await_awaited id target
    rw [hexec]
    exact .await hawaited
  | sync generationId id assignments submitted =>
    have hexec : ((sync generationId id assignments submitted).body now assigned).exec s =
        (((syncRound now generationId id assignments submitted).exec s).1.map fun round =>
          round.next generationId id assignments,
          ((syncRound now generationId id assignments submitted).exec s).2) := exec_map
    rw [hexec]
    exact .sync (syncRound_synced h hchecked)
  | heartbeat generationId id => exact .heartbeat (heartbeatRound_beaten h)
  -- leaving may fail in the `advance_group` that follows it
  | leave id =>
    apply Done.leave
    have hleft := Section.gives_def.mp (leaveRound_left now id h)
    show Left now id s ((leaveRound now id).exec s).1 ((leaveRound now id).exec s).2
    cases hexec : (leaveRound now id).exec s with
    | mk r s' =>
      cases r with
      | error e => exact hleft.2 e s' hexec
      | ok next => exact hleft.1 next s' hexec
  | commit generationId id commits =>
    obtain ⟨r, hexec, hcommitting⟩ := commitRound_committing generationId id commits h
    show Done now assigned _ s ((commitRound generationId id commits).exec s).1
      ((commitRound generationId id commits).exec s).2
    rw [hexec]
    exact .commit hcommitting

theorem Stage.Done.valid {r : Except Halt Next} (hdone : Done now assigned stage s r s')
    (h : ValidSlot s) (hchecked : stage.Checked) (hassigned : assigned ≠ "") : ValidSlot s' := by
  cases hdone with
  | enter entered => exact entered.valid h hchecked hassigned
  | settle => exact h
  | await awaited => exact h
  | sync synced => exact synced.valid h hchecked
  | heartbeat beaten => exact beaten.valid h
  | leave left => exact left.valid h
  | commit committing => exact h

/-- A section does not panic. -/
theorem Stage.Done.ne_panicked {r : Except Halt Next} (hdone : Done now assigned stage s r s')
    (text : String) : r ≠ .error (.panicked text) := by
  cases hdone with
  | enter entered => cases entered <;> nofun
  | settle => nofun
  | await awaited => cases awaited <;> nofun
  | sync synced => cases synced <;> nofun
  | heartbeat beaten => cases beaten <;> nofun
  | leave left => cases left <;> nofun
  | commit committing => cases committing <;> nofun

/-- Everything that a section can come to. -/
inductive Stage.Ran (now : Nat) (assigned : String) (stage : Stage) (s : Option GroupState) :
    Except Halt Next → Option GroupState → Prop where
  | stopped {s' : Option GroupState} (e : Halt) (advanced : AdvancedSlot now s (.error e) s') :
      Ran now assigned stage s (.error e) s'
  | done {s₁ : Option GroupState} {r : Except Halt Next} {s' : Option GroupState} (changed : Bool)
      (advanced : AdvancedSlot now s (.ok changed) s₁) (done : Done now assigned stage s₁ r s') :
      Ran now assigned stage s r s'

/-- **What a section can come to.** -/
theorem Stage.run_ran (now : Nat) (assigned : String) (stage : Stage) (h : ValidSlot s)
    (hchecked : stage.Checked) :
    Ran now assigned stage s ((stage.run now assigned).exec s).1
      ((stage.run now assigned).exec s).2 := by
  have hadvanced := advanceGroup_slot now h
  unfold run
  rw [Section.exec_bind]
  cases hexec : (advanceGroup now).exec s with
  | mk r s₁ =>
    rw [hexec] at hadvanced
    cases r with
    | error e => exact .stopped e hadvanced
    | ok changed =>
      exact .done changed hadvanced (body_done (hadvanced.valid h) hchecked)

theorem Stage.Ran.valid {r : Except Halt Next} (hran : Ran now assigned stage s r s')
    (h : ValidSlot s) (hchecked : stage.Checked) (hassigned : assigned ≠ "") : ValidSlot s' := by
  cases hran with
  | stopped e advanced => exact advanced.valid h
  | done changed advanced done => exact done.valid (advanced.valid h) hchecked hassigned

theorem Stage.Ran.ne_panicked {r : Except Halt Next} (hran : Ran now assigned stage s r s')
    (text : String) : r ≠ .error (.panicked text) := by
  cases hran with
  | stopped e advanced =>
    rw [advanced.error_eq]
    nofun
  | done changed advanced done => exact done.ne_panicked text

end Walstream.Group

import Walstream.Group.Slots
import Walstream.Group.Stages

/-!
# The groups of the coordinator

In every state that the coordinator can reach, every group has its invariant, no operation has
panicked, and a rebalance that is complete always finds a protocol for its generation.
-/

namespace Walstream.Group

open Interaction Log
open Std (ExtTreeMap)

variable {store : OffsetStore}

/-! ## Operations -/

theorem Call.checked {call : Call} (h : call.validate = .ok ()) : call.stage.Checked := by
  cases call with
  | join group request => exact JoinRequest.validate_spec h
  | sync group generationId memberId assignments =>
    simp only [validate, bind_eq_ok] at h
    obtain ⟨_, -, _, -, hassignments⟩ := h
    exact validateAssignments_le hassignments
  | heartbeat group generationId memberId => trivial
  | leave group memberId => trivial
  | commit group generationId memberId commits => trivial

/-- An operation works on a request that has passed its checks, and does not panic. -/
def Task.Sane (t : Task store.Work) : Prop :=
  match t.point with
  | .called => True
  | .sweeping _ _ => t.call.validate = .ok ()
  | .found _ => t.call.validate = .ok ()
  | .locking _ _ stage => stage.Checked
  | .running _ _ stage => stage.Checked
  | .storing _ _ => True
  | .reclaiming _ outcome => ∀ text, outcome ≠ .error (.panicked text)
  | .dropping _ outcome => ∀ text, outcome ≠ .error (.panicked text)
  | .returned outcome => ∀ text, outcome ≠ .error (.panicked text)

/-- A section goes on with a request that has passed its checks. -/
theorem Stage.Done.next_checked {s s' : Option GroupState} {now : Nat} {assigned : String}
    {stage stage' : Stage} (hdone : Done now assigned stage s (.ok (.section stage')) s')
    (hchecked : stage.Checked) : stage'.Checked := by
  generalize hr : (Except.ok (Next.section stage') : Except Halt Next) = r at hdone
  cases hdone with
  -- a join goes on with sections that have nothing to check
  | enter entered =>
    cases entered with
    | founded new =>
      cases hr
      trivial
    | unknown old => cases hr
    | rejected e why => cases hr
    | full new why => cases hr
    | accepted fits room =>
      cases hr
      trivial
  | settle =>
    cases hr
    trivial
  | await awaited =>
    cases awaited with
    | waiting m same member result =>
      cases hr
      trivial
    | _ => cases hr
  | sync synced =>
    -- a sync repeats its round with the assignments it has brought
    have hround : ∀ {g : GroupState} {id : String} {round : SyncRound} {k : Int}
        {assignments : List SyncAssignment}, Told g id round →
        Next.section stage' = round.next k id assignments →
        (assignments.map fun a => a.assignment.length).sum ≤ maxGroupAssignmentBytes →
        stage'.Checked := by
      intro g id round k assignments htold heq hbytes
      cases htold <;> cases heq
      exact hbytes
    -- what the leader has submitted was checked when the call came
    cases synced with
    | gone => cases hr
    | rejected e => cases hr
    | installed installed first active phase leader exact told =>
      exact hround told (Except.ok.inj hr) hchecked
    | heard first active phase told => exact hround told (Except.ok.inj hr) hchecked
    | looked again active phase told => exact hround told (Except.ok.inj hr) hchecked
  -- these sections reply at once
  | heartbeat beaten => cases beaten <;> cases hr
  | leave left => cases left <;> cases hr
  | commit committing => cases committing <;> cases hr

theorem Stage.Ran.next_checked {s s' : Option GroupState} {now : Nat} {assigned : String}
    {stage stage' : Stage} (hran : Ran now assigned stage s (.ok (.section stage')) s')
    (hchecked : stage.Checked) : stage'.Checked := by
  cases hran with
  | done changed advanced done => exact done.next_checked hchecked

/-- An operation that has not panicked goes on without panic. -/
theorem resume_sane {slot : Nat} {s s' : Option GroupState} {now : Nat}
    {assigned : String} {stage : Stage} {r : Except Halt Next} {t : Task store.Work}
    (hran : Stage.Ran now assigned stage s r s') (hchecked : stage.Checked)
    (hpoint : t.point = store.resume t.call.group slot r) : t.Sane := by
  have hpanic := hran.ne_panicked
  unfold Task.Sane
  rw [hpoint]
  unfold OffsetStore.resume
  cases r with
  | error halt =>
    intro text heq
    cases heq
    exact hpanic text rfl
  | ok next =>
    cases next with
    | «section» stage' => exact hran.next_checked hchecked
    | store commits => trivial
    | reply result reclaim =>
      have hresult : ∀ text, (result.mapError Halt.error : Outcome) ≠ .error (.panicked text) := by
        intro text
        cases result <;> nofun
      cases reclaim
      · exact hresult
      · exact hresult

/-! ## The system -/

/-- All groups have their invariant. -/
structure ValidGroups (w : Shared store.Content) : Prop where
  valid : ∀ slot, ValidSlot (w.slots slot).state
  issued : "" ∈ w.issued

theorem ValidGroups.withSlot {w w' : Shared store.Content} (h : ValidGroups w) {s : Nat}
    {x : Slot} (hslots : w'.slots = (w.withSlot s x).slots) (hissued : "" ∈ w'.issued)
    (hx : ValidSlot x.state) : ValidGroups w' where
  valid := fun s => by
    rw [hslots, Shared.withSlot_slots]
    split
    · exact hx
    · exact h.valid s
  issued := hissued

/-- A step of an operation keeps the invariants. -/
theorem ValidGroups.moves {w w' : Shared store.Content} {t t' : Task store.Work} {e : Event}
    (h : ValidGroups w) (ht : t.Sane) (hmoves : Moves store w t e w' t') :
    ValidGroups w' ∧ t'.Sane := by
  unfold Task.Sane at ht
  cases hmoves with
  | refuse e here why => exact ⟨h, nofun⟩
  | find slot here valid free there =>
    refine ⟨h.withSlot rfl h.issued (h.valid slot), ?_⟩
    obtain ⟨call, generated, point⟩ := t
    cases call with
    | join group request => exact valid
    | sync group generationId memberId assignments => exact Call.checked valid
    | heartbeat group generationId memberId => trivial
    | leave group memberId => trivial
    | commit group generationId memberId commits => trivial
  | absent here valid free absent old => exact ⟨h, nofun⟩
  | sweep left here valid free absent first all => exact ⟨⟨h.valid, h.issued⟩, valid⟩
  | skip now slot name left here there used =>
    rw [here] at ht
    exact ⟨h, ht⟩
  | keep now slot name left r state here there unused unlocked exec stays =>
    rw [here] at ht
    have hadvanced := advanceGroup_slot now (h.valid slot)
    rw [exec] at hadvanced
    exact ⟨h.withSlot rfl h.issued (hadvanced.valid (h.valid slot)), ht⟩
  | discard now slot name left changed here there unused unlocked exec =>
    rw [here] at ht
    refine ⟨h.withSlot (s := slot)
      (x := { w.slots slot with state := none, refs := (w.slots slot).refs - 1 }) ?_ h.issued nofun, ht⟩
    funext s
    show ((w.withSlot slot _).withSlot slot _).slots s = _
    by_cases hs : s = slot <;> simp [hs]
  | crash now slot name text left state here there unused unlocked exec =>
    -- `advance_group` does not panic on a valid group
    have hadvanced := advanceGroup_slot now (h.valid slot)
    rw [exec] at hadvanced
    cases hadvanced.error_eq
  | full now here why => exact ⟨⟨h.valid, h.issued⟩, nofun⟩
  | create now here room =>
    rw [here] at ht
    exact ⟨h.withSlot rfl h.issued nofun, ht⟩
  | read slot here =>
    rw [here] at ht
    exact ⟨h, Call.checked ht⟩
  | lock slot reading stage here unlocked =>
    rw [here] at ht
    exact ⟨h.withSlot rfl h.issued (h.valid slot), ht⟩
  | run slot reading stage assigned r state here new exec =>
    rw [here] at ht
    have hran := Stage.run_ran (reading.getD w.clock) assigned stage (h.valid slot) ht
    rw [exec] at hran
    have hassigned : assigned ≠ "" := by
      rintro rfl
      exact new h.issued
    exact ⟨h.withSlot rfl (List.mem_cons_of_mem _ h.issued)
      (hran.valid (h.valid slot) ht hassigned), resume_sane hran ht rfl⟩
  | work slot work work' content here step => exact ⟨⟨h.valid, h.issued⟩, trivial⟩
  | stored slot work content result here step =>
    refine ⟨h.withSlot rfl h.issued (h.valid slot), ?_⟩
    intro text
    cases result <;> nofun
  | reclaim slot outcome here free same idle =>
    rw [here] at ht
    exact ⟨h.withSlot rfl h.issued (h.valid slot), ht⟩
  | leaveSlot slot outcome here free why =>
    rw [here] at ht
    exact ⟨h, ht⟩
  | drop slot outcome here =>
    rw [here] at ht
    exact ⟨h.withSlot rfl h.issued (h.valid slot), ht⟩

theorem Run.validGroups {P : System store → Ledger → Event → Prop} {w : System store} {l : Ledger}
    (hrun : Run store P w l) : ValidGroups w.shared ∧ ∀ t ∈ w.tasks, t.Sane := by
  induction hrun with
  | init clock content l =>
    refine ⟨⟨fun slot g hg => ?_, List.mem_singleton_self _⟩, fun t ht => absurd ht List.not_mem_nil⟩
    cases hg
  | step run meets step ih =>
    obtain ⟨hvalid, htasks⟩ := ih
    cases step with
    | tick clock later => exact ⟨⟨hvalid.valid, hvalid.issued⟩, htasks⟩
    | call call =>
      refine ⟨hvalid, fun t ht => ?_⟩
      rcases List.mem_cons.mp ht with rfl | ht
      · trivial
      · exact htasks t ht
    | move before after moves =>
      obtain ⟨hvalid', hsane⟩ := hvalid.moves (htasks _ (by simp)) moves
      refine ⟨hvalid', fun u hu => ?_⟩
      simp only [List.mem_append, List.mem_cons] at hu
      rcases hu with hu | rfl | hu
      · exact htasks u (by simp [hu])
      · exact hsane
      · exact htasks u (by simp [hu])

/-! ## Invariants of the slots -/

/-- The stage of a join that applies its request. -/
def Stage.Enters (stage : Stage) : Prop := ∃ request, stage = .enter request

/-- Only a join reads the clock before it takes the lock. -/
def Stage.ReadIn (stage : Stage) (reading : Option Nat) (clock : Nat) : Prop :=
  ∀ now, reading = some now → now ≤ clock ∧ stage.Enters

/-- What an operation has read of the clock, it has read in the past. -/
def Task.Past (t : Task store.Work) (clock : Nat) : Prop :=
  match t.point with
  | .sweeping now _ => now ≤ clock ∧ t.call.stage.Enters
  | .found _ => t.call.stage.Enters
  | .locking _ reading stage => stage.ReadIn reading clock
  | .running _ reading stage => stage.ReadIn reading clock
  | _ => True

theorem Task.Past.later {t : Task store.Work} {clock clock' : Nat} (h : t.Past clock)
    (hle : clock ≤ clock') : t.Past clock' := by
  have hreading : ∀ {stage : Stage} {reading : Option Nat}, stage.ReadIn reading clock →
      stage.ReadIn reading clock' :=
    fun hread now hnow => ⟨le_trans (hread now hnow).1 hle, (hread now hnow).2⟩
  unfold Task.Past at h ⊢
  split at h
  · exact ⟨le_trans h.1 hle, h.2⟩
  · exact h
  · exact hreading h
  · exact hreading h
  · trivial

theorem Task.Past.moves {w w' : Shared store.Content} {t t' : Task store.Work} {e : Event}
    (h : t.Past w.clock) (hmoves : Moves store w t e w' t') : t'.Past w'.clock := by
  unfold Task.Past at h
  cases hmoves with
  -- only a join reads the clock before it has its slot
  | find slot here valid free there =>
    obtain ⟨call, generated, point⟩ := t
    cases call with
    | join group request => exact ⟨request, rfl⟩
    | sync group generationId memberId assignments => exact nofun
    | heartbeat group generationId memberId => exact nofun
    | leave group memberId => exact nofun
    | commit group generationId memberId commits => exact nofun
  | sweep left here valid free absent first all =>
    refine ⟨le_rfl, ?_⟩
    obtain ⟨call, generated, point⟩ := t
    cases call with
    | join group request => exact ⟨request, rfl⟩
    | _ => cases first
  -- the reading of a sweep stays with it
  | skip now slot name left here there used
  | keep now slot name left r state here there unused unlocked exec stays
  | discard now slot name left changed here there unused unlocked exec =>
    rw [here] at h
    exact h
  -- the clock is read now, and a join still has its earlier reading
  | read slot here =>
    rw [here] at h
    rintro now ⟨⟩
    exact ⟨le_rfl, h⟩
  | lock slot reading stage here unlocked =>
    rw [here] at h
    exact h
  | run slot reading stage assigned r state here new exec =>
    unfold Task.Past OffsetStore.resume
    cases r with
    | error halt => trivial
    | ok next =>
      cases next with
      | «section» stage' => exact nofun
      | store commits => trivial
      | reply result reclaim => cases reclaim <;> trivial
  -- where no reading is left there is nothing to show
  | refuse e here why => trivial
  | absent here valid free absent old => trivial
  | crash now slot name text left state here there unused unlocked exec => trivial
  | full now here why => trivial
  | create now here room =>
    rw [here] at h
    exact h.2
  | work slot work work' content here step => trivial
  | stored slot work content result here step => trivial
  | reclaim slot outcome here free same idle => trivial
  | leaveSlot slot outcome here free why => trivial
  | drop slot outcome here => trivial

/-- No reading of the clock is in the future. -/
theorem Run.past {P : System store → Ledger → Event → Prop} {w : System store} {l : Ledger}
    (hrun : Run store P w l) : ∀ t ∈ w.tasks, t.Past w.shared.clock := by
  induction hrun with
  | init clock content l => exact fun t ht => absurd ht List.not_mem_nil
  | step run meets step ih =>
    cases step with
    | tick clock later => exact fun t ht => (ih t ht).later later
    | call call =>
      intro t ht
      rcases List.mem_cons.mp ht with rfl | ht
      · trivial
      · exact ih t ht
    | move before after moves =>
      intro u hu
      simp only [List.mem_append, List.mem_cons] at hu
      rcases hu with hu | rfl | hu
      · exact moves.clock_eq ▸ ih u (by simp [hu])
      · exact (ih _ (by simp)).moves moves
      · exact moves.clock_eq ▸ ih u (by simp [hu])

/-- What makes a condition on a slot and its record an invariant: it holds of slots without a
group, and time, sections and sweeps keep it. -/
structure SlotInvariant (store : OffsetStore) (P : System store → Ledger → Event → Prop)
    (I : Nat → Record → Option GroupState → Prop) : Prop where
  empty : ∀ clock record, I clock record none
  later : ∀ {clock clock' record s}, clock ≤ clock' → I clock record s → I clock' record s
  ran : ∀ {w : System store} {l : Ledger} {slot now : Nat} {assigned : String}
    {generated : Option String} {stage : Stage},
    P w l (.ran slot now assigned generated stage) → now ≤ w.shared.clock →
    (now = w.shared.clock ∨ stage.Enters) → stage.Checked →
    assigned ≠ "" → ValidSlot (w.shared.slots slot).state →
    I w.shared.clock (l slot) (w.shared.slots slot).state →
    I w.shared.clock
      ((l slot).ran w.shared.clock now assigned stage (w.shared.slots slot).state)
      ((stage.run now assigned).exec (w.shared.slots slot).state).2
  swept : ∀ {w : System store} {l : Ledger} {slot now : Nat},
    P w l (.swept slot now) → now ≤ w.shared.clock → ValidSlot (w.shared.slots slot).state →
    I w.shared.clock (l slot) (w.shared.slots slot).state →
    I w.shared.clock ((l slot).swept w.shared.clock now (w.shared.slots slot).state)
      ((advanceGroup now).exec (w.shared.slots slot).state).2

/-- What a section that is about to run can rely on. -/
theorem Moves.ran_spec {w w' : Shared store.Content} {t t' : Task store.Work} {slot now : Nat}
    {assigned : String} {generated : Option String} {stage : Stage}
    (hmoves : Moves store w t (.ran slot now assigned generated stage) w' t')
    (hvalid : ValidGroups w) (hsane : t.Sane) (hpast : t.Past w.clock) :
    now ≤ w.clock ∧ (now = w.clock ∨ stage.Enters) ∧ stage.Checked ∧ assigned ≠ "" := by
  cases hmoves with
  | run slot reading stage assigned r state here new exec =>
    unfold Task.Sane at hsane
    unfold Task.Past at hpast
    rw [here] at hsane hpast
    have hassigned : assigned ≠ "" := by
      rintro rfl
      exact new hvalid.issued
    cases reading with
    | none => exact ⟨le_rfl, .inl rfl, hsane, hassigned⟩
    | some now => exact ⟨(hpast now rfl).1, .inr (hpast now rfl).2, hsane, hassigned⟩

theorem Moves.swept_spec {w w' : Shared store.Content} {t t' : Task store.Work} {slot now : Nat}
    (hmoves : Moves store w t (.swept slot now) w' t') (hpast : t.Past w.clock) :
    now ≤ w.clock := by
  unfold Task.Past at hpast
  cases hmoves with
  | keep now slot name left r state here there unused unlocked exec stays =>
    rw [here] at hpast
    exact hpast.1
  | discard now slot name left changed here there unused unlocked exec =>
    rw [here] at hpast
    exact hpast.1
  | crash now slot name text left state here there unused unlocked exec =>
    rw [here] at hpast
    exact hpast.1

/-- **An invariant of slots holds of every slot of a run.** -/
theorem Run.slotInvariant {P : System store → Ledger → Event → Prop}
    {I : Nat → Record → Option GroupState → Prop} (hI : SlotInvariant store P I)
    {w : System store} {l : Ledger} (hrun : Run store P w l) (slot : Nat) :
    I w.shared.clock (l slot) (w.shared.slots slot).state := by
  induction hrun generalizing slot with
  -- only a move touches a slot, and it touches one
  | init clock content l => exact hI.empty _ _
  | @step w w' l e run meets step ih =>
    obtain ⟨hvalid, hsane⟩ := run.validGroups
    have hpast := run.past
    cases step with
    | tick clock later => exact hI.later later (ih slot)
    | call call => exact ih slot
    | @move w w' _ t t' before after moves =>
      have hmem : t ∈ before ++ t :: after := by simp
      have hclock : w'.clock = w.clock := moves.clock_eq
      show I w'.clock _ (w'.slots slot).state
      rw [hclock]
      cases e with
      -- a quiet step empties a slot at most
      | quiet =>
        rcases moves.quiet_state slot with heq | hnone
        · rw [heq]
          exact ih slot
        · rw [hnone]
          exact hI.empty _ _
      -- a section changes its own slot
      | ran slot' now assigned generated stage =>
        obtain ⟨hnow, hread, hchecked, hassigned⟩ :=
          moves.ran_spec hvalid (hsane t hmem) (hpast t hmem)
        rw [moves.ran_state slot]
        show I w.clock (Function.update l slot' _ slot) _
        rw [Function.update_apply]
        split
        · rename_i hslot
          exact hI.ran meets hnow hread hchecked hassigned (hvalid.valid slot') (ih slot')
        · exact ih slot
      -- a sweep changes the slot it has come to
      | swept slot' now =>
        rw [moves.swept_state slot]
        show I w.clock (Function.update l slot' _ slot) _
        rw [Function.update_apply]
        split
        · rename_i hslot
          exact hI.swept meets (moves.swept_spec (hpast t hmem)) (hvalid.valid slot') (ih slot')
        · exact ih slot

/-! ## The coordinator -/

/-- How an operation has ended, or will end. -/
def Point.outcome {Work : Type} : Point Work → Option Outcome
  | reclaiming _ outcome => some outcome
  | dropping _ outcome => some outcome
  | returned outcome => some outcome
  | _ => none

/-- What holds of the groups of the coordinator. -/
structure System.GroupsConsistent (w : System store) : Prop where
  /-- Every group has its invariant. -/
  valid : ∀ slot g, (w.shared.slots slot).state = some g → g.Valid
  /-- No `expect` and no `unreachable!` was hit. -/
  sound : ∀ t ∈ w.tasks, ∀ text, t.point.outcome ≠ some (.error (.panicked text))
  /-- `advance_group` fails only when the numbers of generations have run out. In particular
  `finalize_rebalance` finds a protocol. -/
  advances : ∀ slot now e s, (advanceGroup now).exec (w.shared.slots slot).state = (.error e, s) →
    e = .kafka .unknownServerError
  /-- So does the rest of `leave`. -/
  leaves : ∀ slot now memberId e s, ((Stage.leave memberId).run now "").exec
    (w.shared.slots slot).state = (.error e, s) → e = .kafka .unknownServerError

/-- **The invariant of groups**, in every state that the coordinator can reach. -/
theorem reachable_groupsConsistent (store : OffsetStore) (w : System store) (h : Reachable w) :
    w.GroupsConsistent := by
  obtain ⟨l, hrun⟩ := h
  obtain ⟨hvalid, hsane⟩ := hrun.validGroups
  exact
  { valid := hvalid.valid
    sound := fun t ht text heq => by
      have hsane := hsane t ht
      unfold Task.Sane at hsane
      -- a panic has stopped an operation at one of three points, and each is excluded
      unfold Point.outcome at heq
      split at heq
      · rename_i hpoint
        cases heq
        rw [hpoint] at hsane
        exact hsane text rfl
      · rename_i hpoint
        cases heq
        rw [hpoint] at hsane
        exact hsane text rfl
      · rename_i hpoint
        cases heq
        rw [hpoint] at hsane
        exact hsane text rfl
      · cases heq
    advances := fun slot now e s hexec => by
      have hadvanced := advanceGroup_slot now (hvalid.valid slot)
      rw [hexec] at hadvanced
      exact hadvanced.error_eq
    -- leaving fails only in the `advance_group` before it or in the one after it
    leaves := fun slot now memberId e s hexec => by
      have hran := Stage.run_ran now "" (.leave memberId)
        (hvalid.valid slot) trivial
      rw [hexec] at hran
      cases hran with
      | stopped e advanced => exact advanced.error_eq
      | done changed advanced done =>
        cases done with
        | leave left =>
          cases left with
          | exhausted member phase left joined full => rfl }

/-- While a commit has the lock of its slot, say. -/
theorem reachable_groupsConsistent_committing : ∃ w : System promptStore, Reachable w ∧
    w.commits "group" 0 1 = true ∧ w.GroupsConsistent := by
  obtain ⟨w, hreachable, hcommits⟩ := promptRun_reachable committing
    (fun w => w.commits "group" 0 1) (by decide +kernel)
  exact ⟨w, hreachable, hcommits, reachable_groupsConsistent promptStore w hreachable⟩

end Walstream.Group

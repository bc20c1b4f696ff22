import Walstream.Group.Promises

/-!
# Joins that fail

A join without a member id puts a new member on file and waits for the outcome of the rebalance
that the member has joined. If it fails then, the client does not learn the id, and nothing takes
the member back. No such member stays in a group as long as nobody starts a rebalance of the group
while the join waits (`Undisturbed`).
-/

namespace Walstream.Group

open Interaction Log
open Std (ExtTreeMap)

variable {store : OffsetStore} {now : Nat} {g k : GroupState} {s s' : Option GroupState}
  {assigned id : String} {stage : Stage}

/-- In every run all of whose steps satisfy `P`, the member of a first join that has failed is in
no group. -/
def NoGhosts (store : OffsetStore) (P : System store → Ledger → Event → Prop) : Prop :=
  ∀ (w : System store) (l : Ledger), Run store P w l → ∀ t ∈ w.tasks,
    t.call.isFirstJoin = true → ∀ id e, t.generated = some id →
      t.point.outcome = some (.error e) → ∀ slot g, (w.shared.slots slot).state = some g →
        id ∉ g.members

/-! ## Rebalances that are started -/

/-- `advance_group` starts a rebalance, and the member is part of it. -/
def GroupState.dueFor (g : GroupState) (now : Nat) (id : String) : Bool :=
  g.due now && (g.members[id]?).any fun m => now < m.deadline

/-- A join or a leave starts a rebalance of the group, and the member is part of it. -/
def Stage.restarts (stage : Stage) (g : GroupState) (id : String) : Bool :=
  g.phase != .joining && g.members.contains id &&
    match stage with
    | enter request => request.fits (some g)
    | leave memberId => memberId != id && g.members.contains memberId
    | _ => false

/-- The step starts a rebalance of the group in the slot, and the member is part of it. -/
def Event.restarts {Content : Type} (w : Shared Content) (slot : Nat) (id : String) : Event → Bool
  | quiet => false
  | ran slot' now _ _ stage => slot' == slot && ((w.slots slot).state.any (·.dueFor now id) ||
      (reached now (w.slots slot).state).any fun s => s.any (stage.restarts · id))
  | swept slot' now => slot' == slot && (w.slots slot).state.any (·.dueFor now id)

/-- The member and the rebalance whose outcome a section of a join waits for. -/
def Stage.awaits : Stage → Option (String × Nat)
  | settle id target => some (id, target)
  | await id target => some (id, target)
  | _ => none

/-- The slot, the member and the rebalance whose outcome a join waits for. -/
def Point.awaits {Work : Type} : Point Work → Option (Nat × String × Nat)
  | locking slot _ stage => stage.awaits.map fun p => (slot, p)
  | running slot _ stage => stage.awaits.map fun p => (slot, p)
  | _ => none

/-- So for a first join, whose member nobody knows yet. -/
def Task.awaits {Work : Type} (t : Task Work) : Option (Nat × String × Nat) :=
  t.generated.bind fun _ => t.point.awaits

/-- The step does not start a rebalance with a member whose join waits at this slot, and while the
group is in Joining with the member, it has a number left for its generation. -/
def Undisturbing {Content : Type} (w : Shared Content) (e : Event) (p : Nat × String × Nat) : Prop :=
  e.restarts w p.1 p.2.1 = false ∧ ∀ g ∈ (w.slots p.1).state, p.2.1 ∈ g.members →
    g.phase = .joining → g.generationId < i32Max

instance {Content : Type} (w : Shared Content) (e : Event) (p : Nat × String × Nat) :
    Decidable (Undisturbing w e p) :=
  inferInstanceAs (Decidable (_ = false ∧ ∀ g ∈ (w.slots p.1).state, p.2.1 ∈ g.members →
    g.phase = .joining → g.generationId < i32Max))

/-- No rebalance is started of a group while a first join waits for the outcome of the one that
its member has joined. -/
def Undisturbed (w : System store) (e : Event) : Prop :=
  ∀ t ∈ w.tasks, ∀ p ∈ t.awaits, Undisturbing w.shared e p

instance (w : System store) (e : Event) : Decidable (Undisturbed w e) :=
  inferInstanceAs (Decidable (∀ t ∈ w.tasks, ∀ p ∈ t.awaits, Undisturbing w.shared e p))

theorem mem_of_getElem? {m : MemberState} (hm : g.members[id]? = some m) : id ∈ g.members :=
  ExtTreeMap.mem_iff_exists.mpr ⟨m, hm⟩

theorem GroupState.dueFor_of_due {m : MemberState} (hdue : g.due now = true)
    (hm : g.members[id]? = some m) (hlive : now < m.deadline) : g.dueFor now id = true := by
  simp [dueFor, hdue, hm, hlive]

/-- Who is in the group after `advance_group` was in it before, and its rebalance goes on unless
one is due. -/
theorem AdvancedSlot.rebalance {r : Except Halt Bool} (hadvanced : AdvancedSlot now s r (some k))
    (hid : id ∈ k.members) : ∃ g, s = some g ∧ id ∈ g.members ∧
      (k.rebalanceId = g.rebalanceId ∨ g.dueFor now id = true) ∧
      ∀ e, r = .error e → g.phase = .joining ∧ g.generationId = i32Max := by
  obtain ⟨m, hm⟩ := ExtTreeMap.mem_iff_exists.mp hid
  cases hadvanced with
  | @group g _ _ hadvanced =>
    refine ⟨g, rfl, ?_⟩
    cases hadvanced with
    -- in each case who is left was there, and has kept the rebalance or got a new one
    | idle phase live time => exact ⟨hid, .inl rfl, nofun⟩
    | restarted phase left why =>
      obtain ⟨m', hm', -⟩ := GroupState.restarted_getElem?.mp hm
      obtain ⟨hm', hlive⟩ := GroupState.keep_getElem?.mp hm'
      exact ⟨mem_of_getElem? hm', .inr (GroupState.dueFor_of_due
        (GroupState.due_of_restarted phase left why) hm' (of_decide_eq_true hlive)), nofun⟩
    | waiting changed phase laggard =>
      exact ⟨mem_of_getElem? (GroupState.lasting_getElem?.mp hm).1, .inl (by simp), nofun⟩
    | completed name phase left joined room offered =>
      obtain ⟨m', hm', -⟩ := GroupState.finalized_getElem?.mp hm
      exact ⟨mem_of_getElem? (GroupState.lasting_getElem?.mp hm').1,
        .inl GroupState.lasting_rebalanceId, nofun⟩
    -- the next generation has no number
    | exhausted phase left joined full =>
      exact ⟨mem_of_getElem? (GroupState.lasting_getElem?.mp hm).1, .inl (by simp),
        fun _ _ => ⟨phase, full⟩⟩

/-- Who is in the group after a change was in it before or is the new member, and the rebalance
goes on unless the section starts one. -/
theorem Stage.Changed.rebalance {o : Option String}
    (hchanged : Changed now assigned stage s o (some k)) (hid : id ∈ k.members) :
    id = assigned ∨ ∃ g, s = some g ∧ id ∈ g.members ∧
      (k.rebalanceId = g.rebalanceId ∨ stage.restarts g id = true) := by
  obtain ⟨m, hm⟩ := ExtTreeMap.mem_iff_exists.mp hid
  cases hchanged with
  -- a new group has no member but its founder
  | founded new => exact .inl (JoinRequest.found_getElem?.mp hm).1
  | @joined request g fits room =>
    by_cases hassigned : id = assigned
    · exact .inl hassigned
    have hold : id ∈ g.members := by
      obtain ⟨heq, -⟩ | ⟨-, hm⟩ := JoinRequest.registered_getElem?.mp hm
      · -- the member of the request is there already
        have hmember : request.memberId ≠ "" := fun hnew =>
          hassigned (heq.trans (if_pos hnew))
        rw [heq, show request.idFor assigned = request.memberId from if_neg hmember]
        exact (JoinRequest.validateFor_spec fits).1 hmember
      · obtain ⟨f, hmap⟩ := GroupState.rejoining_mapped (g := g) now
        obtain ⟨m', hm', -⟩ := hmap.getElem?.mp hm
        exact mem_of_getElem? hm'
    refine .inr ⟨g, rfl, hold, ?_⟩
    -- the join starts a rebalance unless one is under way
    by_cases hphase : g.phase = .joining
    · left
      show (g.rejoining now).rebalanceId = g.rebalanceId
      rw [show g.rejoining now = g from if_pos hphase]
    · right
      simp [restarts, hphase, ExtTreeMap.mem_iff_contains.mp hold,
        JoinRequest.fits_of_accepted fits room]
  -- who installs assignments or is heard was there already
  | @installed _ _ _ _ g installed phase =>
    obtain ⟨m', hm', -⟩ := GroupState.touch_getElem?.mp hm
    obtain ⟨m'', hm'', -⟩ := GroupState.install_mapped.getElem?.mp hm'
    exact .inr ⟨g, rfl, mem_of_getElem? hm'', .inl rfl⟩
  | @touched _ g _ other =>
    obtain ⟨m', hm', -⟩ := GroupState.touch_getElem?.mp hm
    exact .inr ⟨g, rfl, mem_of_getElem? hm', .inl rfl⟩
  | @remained _ g phase =>
    exact .inr ⟨g, rfl, mem_of_getElem? (GroupState.without_getElem?.mp hm).2,
      .inl GroupState.keep_rebalanceId⟩
  | @completed _ g name phase =>
    obtain ⟨m', hm', -⟩ := GroupState.finalized_getElem?.mp hm
    exact .inr ⟨g, rfl, mem_of_getElem? (GroupState.without_getElem?.mp hm').2,
      .inl GroupState.keep_rebalanceId⟩
  -- whoever remains takes part in the rebalance that the leave starts
  | @restarted leaver g member phase =>
    obtain ⟨m', hm', -⟩ := GroupState.restarted_getElem?.mp hm
    obtain ⟨hne, hm'⟩ := GroupState.without_getElem?.mp hm'
    refine .inr ⟨g, rfl, mem_of_getElem? hm', .inr ?_⟩
    simp [restarts, phase, ExtTreeMap.mem_iff_contains.mp (mem_of_getElem? hm'), Ne.symm hne,
      ExtTreeMap.mem_iff_contains.mp member]

/-- So it is with a whole section. -/
theorem Stage.run_rebalance (h : ValidSlot s) (hchecked : stage.Checked)
    (hk : ((stage.run now assigned).exec s).2 = some k) (hid : id ∈ k.members) :
    id = assigned ∨ ∃ g, s = some g ∧ id ∈ g.members ∧ (k.rebalanceId = g.rebalanceId ∨
      g.dueFor now id = true ∨
        ((reached now s).any fun s => s.any (stage.restarts · id)) = true) := by
  obtain ⟨r, s₁, -, hadvanced, hout⟩ := run_changed now assigned stage h hchecked
  rcases hout with ⟨hsame, -⟩ | ⟨hreached, hchanged⟩
  · rw [← hsame, hk] at hadvanced
    obtain ⟨g, hg, hmem, hrebalance, -⟩ := hadvanced.rebalance hid
    exact .inr ⟨g, hg, hmem, hrebalance.imp_right .inl⟩
  · rw [hk] at hchanged
    rcases hchanged.rebalance hid with hnew | ⟨g₁, rfl, hmem₁, hrebalance₁⟩
    · exact .inl hnew
    obtain ⟨g, hg, hmem, hrebalance, -⟩ := hadvanced.rebalance hmem₁
    refine .inr ⟨g, hg, hmem, ?_⟩
    rcases hrebalance₁ with hsame₁ | hstarts
    · exact hrebalance.imp hsame₁.trans .inl
    · exact .inr (.inr (by rw [hreached]; exact hstarts))

/-! ## What a join finds -/

/-- A look that fails does not find the member in the group, if the rebalance that it has joined
goes on. -/
theorem look_fails {target : Nat} {e : Halt} (hawaits : stage.awaits = some (id, target))
    (hcurrent : ∀ g, s = some g → id ∈ g.members → g.rebalanceId = target)
    (hcalm : ∀ g, s = some g → g.dueFor now id = false)
    (hroom : ∀ g, s = some g → id ∈ g.members → g.phase = .joining → g.generationId < i32Max)
    (hran : Stage.Ran now assigned stage s (.error e) (some k)) : id ∉ k.members := by
  intro hid
  cases hran with
  -- the group could not advance, which the condition rules out
  | stopped e advanced =>
    obtain ⟨g, hg, hmem, -, hfull⟩ := advanced.rebalance hid
    obtain ⟨hphase, heq⟩ := hfull e rfl
    have := hroom g hg hmem hphase
    omega
  | done changed advanced done =>
    cases stage with
    | settle id' target' => cases done
    | await id' target' =>
      cases hawaits
      cases done with
      | await awaited =>
        cases awaited with
        -- another rebalance was started, which it rules out as well
        | superseded other =>
          obtain ⟨g, hg, hmem, hrebalance, -⟩ := advanced.rebalance hid
          rcases hrebalance with hsame | hdue
          · exact other (hsame.trans (hcurrent g hg hmem))
          · rw [hcalm g hg] at hdue
            cases hdue
        | removed same absent => exact absent hid
    | _ => cases hawaits

/-- A first join that fails at once has put nobody on file. -/
theorem enter_fails {request : JoinRequest} {e : Halt}
    (hran : Stage.Ran now assigned (.enter request) s (.error e) (some k)) (hid : id ∈ k.members) :
    ∃ g, s = some g ∧ id ∈ g.members := by
  cases hran with
  | stopped e advanced =>
    obtain ⟨g, hg, hmem, -⟩ := advanced.rebalance hid
    exact ⟨g, hg, hmem⟩
  | @done s₁ _ _ changed advanced done =>
    have hsame : s₁ = some k := by
      generalize hr : (Except.error e : Except Halt Next) = r at done
      cases done with
      | enter entered =>
        cases entered with
        | founded new => cases hr
        | rejected e why => rfl
        | full new why => rfl
        | accepted fits room => cases hr
    subst hsame
    obtain ⟨g, hg, hmem, -⟩ := advanced.rebalance hid
    exact ⟨g, hg, hmem⟩

/-! ## Ids of members -/

/-- Nobody has this id in the slot. -/
def Shared.Lacks (w : Shared store.Content) (slot : Nat) (id : String) : Prop :=
  ∀ g, (w.slots slot).state = some g → id ∉ g.members

/-- The stage waits for the outcome of a join of this member. -/
def Stage.AwaitsFor (stage : Stage) (id : String) : Prop :=
  ∃ target, stage.awaits = some (id, target)

/-- The member that an operation has generated is in no slot but the one it waits at, and in none
once the operation has failed. -/
def Task.Own (w : Shared store.Content) (t : Task store.Work) : Prop :=
  ∀ id, t.generated = some id → id ∈ w.issued ∧
    match t.point with
    | .locking slot _ stage => stage.AwaitsFor id ∧ ∀ slot', slot' ≠ slot → w.Lacks slot' id
    | .running slot _ stage => stage.AwaitsFor id ∧ ∀ slot', slot' ≠ slot → w.Lacks slot' id
    | .reclaiming _ outcome => ∀ e, outcome = .error e → ∀ slot, w.Lacks slot id
    | .dropping _ outcome => ∀ e, outcome = .error e → ∀ slot, w.Lacks slot id
    | .returned outcome => ∀ e, outcome = .error e → ∀ slot, w.Lacks slot id
    | _ => False

/-- The group is still in the rebalance that the member of a first join has joined, as long as the
member is in it. -/
def Task.Current (w : Shared store.Content) (t : Task store.Work) : Prop :=
  ∀ slot id target, t.awaits = some (slot, id, target) →
    ∀ g, (w.slots slot).state = some g → id ∈ g.members → g.rebalanceId = target

/-- What a first join waits for, it waits for with the id that it has generated. -/
theorem Task.Own.awaits {w : Shared store.Content} {t : Task store.Work} (h : t.Own w)
    {slot target : Nat} (hawaits : t.awaits = some (slot, id, target)) :
    t.generated = some id ∧ id ∈ w.issued := by
  obtain ⟨id', hid, hpoint⟩ := Option.bind_eq_some_iff.mp hawaits
  obtain ⟨hissued, hwaits⟩ := h id' hid
  -- the member of the stage is the one that was generated
  have hsame : ∀ {slot' : Nat} {stage : Stage}, stage.AwaitsFor id' →
      (stage.awaits.map fun p => (slot', p)) = some (slot, id, target) → id' = id := by
    rintro slot' stage ⟨target', hawaits'⟩ heq
    rw [hawaits'] at heq
    cases heq
    rfl
  unfold Point.awaits at hpoint
  split at hpoint
  · rename_i here
    rw [here] at hwaits
    obtain rfl := hsame hwaits.1 hpoint
    exact ⟨hid, hissued⟩
  · rename_i here
    rw [here] at hwaits
    obtain rfl := hsame hwaits.1 hpoint
    exact ⟨hid, hissued⟩
  · cases hpoint

/-- Ids that were given before do not show up in a slot. -/
def OnlyNew (w w' : Shared store.Content) : Prop :=
  w.issued ⊆ w'.issued ∧ ∀ id ∈ w.issued, ∀ slot, w.Lacks slot id → w'.Lacks slot id

theorem OnlyNew.of_state {w w' : Shared store.Content} (hissued : w'.issued = w.issued)
    (hstate : ∀ slot, (w'.slots slot).state = (w.slots slot).state ∨ (w'.slots slot).state = none) :
    OnlyNew w w' := by
  refine ⟨hissued ▸ List.Subset.refl _, fun id _ slot hlacks g hg => ?_⟩
  rcases hstate slot with heq | hnone
  · exact hlacks g (heq ▸ hg)
  · rw [hnone] at hg
    cases hg

theorem Task.Own.mono {w w' : Shared store.Content} {t : Task store.Work} (h : t.Own w)
    (hnew : OnlyNew w w') : t.Own w' := by
  intro id hid
  obtain ⟨hissued, hpoint⟩ := h id hid
  refine ⟨hnew.1 hissued, ?_⟩
  split at hpoint
  · exact ⟨hpoint.1, fun slot' hne => hnew.2 id hissued slot' (hpoint.2 slot' hne)⟩
  · exact ⟨hpoint.1, fun slot' hne => hnew.2 id hissued slot' (hpoint.2 slot' hne)⟩
  · exact fun e he slot => hnew.2 id hissued slot (hpoint e he slot)
  · exact fun e he slot => hnew.2 id hissued slot (hpoint e he slot)
  · exact fun e he slot => hnew.2 id hissued slot (hpoint e he slot)
  · exact hpoint

/-- All ids of members were given to them. -/
def Shared.Known (w : Shared store.Content) : Prop :=
  ∀ slot g, (w.slots slot).state = some g → ∀ id ∈ g.members, id ∈ w.issued

section Steps

variable {w w' : Shared store.Content} {t t' : Task store.Work}

/-- A step that starts no rebalance with a member leaves the group of the member in its
rebalance. -/
theorem Moves.rebalance {e : Event} (hmoves : Moves store w t e w' t') (hvalid : ValidGroups w)
    (hsane : t.Sane) (hpast : t.Past w.clock) (hissued : id ∈ w.issued) {slot : Nat}
    (hcalm : e.restarts w slot id = false) (hk : (w'.slots slot).state = some k)
    (hid : id ∈ k.members) :
    ∃ g, (w.slots slot).state = some g ∧ id ∈ g.members ∧ k.rebalanceId = g.rebalanceId := by
  cases e with
  -- the group is as it was, or gone
  | quiet =>
    rcases hmoves.quiet_state slot with heq | hnone
    · exact ⟨k, heq ▸ hk, hid, rfl⟩
    · rw [hnone] at hk
      cases hk
  | ran slot' now assigned generated stage =>
    rw [hmoves.ran_state] at hk
    split at hk
    · rename_i hs
      subst hs
      obtain ⟨-, -, hchecked, -⟩ := hmoves.ran_spec hvalid hsane hpast
      -- a member that is known by now is not the one this section generates
      have hfresh : assigned ∉ w.issued := by
        cases hmoves with
        | run slot reading stage assigned r state here new exec => exact new
      rcases Stage.run_rebalance (hvalid.valid slot) hchecked hk hid with
        rfl | ⟨g, hg, hmem, hsame | hdue | hstarts⟩
      · exact absurd hissued hfresh
      · exact ⟨g, hg, hmem, hsame⟩
      · simp [Event.restarts, hg, hdue] at hcalm
      · simp only [Event.restarts, hstarts, beq_self_eq_true, Bool.or_true, Bool.and_self] at hcalm
        cases hcalm
    · exact ⟨k, hk, hid, rfl⟩
  -- a sweep does what `advance_group` does
  | swept slot' now =>
    rw [hmoves.swept_state] at hk
    split at hk
    · rename_i hs
      subst hs
      have hadvanced := advanceGroup_slot now (hvalid.valid slot)
      rw [hk] at hadvanced
      obtain ⟨g, hg, hmem, hsame | hdue, -⟩ := hadvanced.rebalance hid
      · exact ⟨g, hg, hmem, hsame⟩
      · simp [Event.restarts, hg, hdue] at hcalm
    · exact ⟨k, hk, hid, rfl⟩

/-- So the rebalance that a first join waits for goes on. -/
theorem Task.Current.moves {e : Event} {u : Task store.Work} (h : u.Current w) (hown : u.Own w)
    (hmoves : Moves store w t e w' t') (hvalid : ValidGroups w) (hsane : t.Sane)
    (hpast : t.Past w.clock)
    (hcalm : ∀ p ∈ u.awaits, e.restarts w p.1 p.2.1 = false) : u.Current w' := by
  intro slot id target hawaits k hk hid
  obtain ⟨g, hg, hmem, hsame⟩ := hmoves.rebalance hvalid hsane hpast (hown.awaits hawaits).2
    (hcalm _ hawaits) hk hid
  exact hsame.trans (h slot id target hawaits g hg hmem)

/-- A step of an operation puts only new ids into the slots. -/
theorem Moves.onlyNew {e : Event} (hmoves : Moves store w t e w' t') (hvalid : ValidGroups w)
    (hsane : t.Sane) (hpast : t.Past w.clock) (hknown : w.Known) :
    OnlyNew w w' ∧ w'.Known := by
  have hissued := hmoves.issued_eq
  cases e with
  | quiet =>
    have hnew := OnlyNew.of_state hissued hmoves.quiet_state
    refine ⟨hnew, fun slot g hg id hid => ?_⟩
    rcases hmoves.quiet_state slot with heq | hnone
    · exact hnew.1 (hknown slot g (heq ▸ hg) id hid)
    · rw [hnone] at hg
      cases hg
  | ran slot now assigned generated stage =>
    obtain ⟨-, -, hchecked, -⟩ := hmoves.ran_spec hvalid hsane hpast
    -- what is in a slot now was there before, or is the id of the new member
    have hmembers : ∀ s g, (w'.slots s).state = some g → ∀ id ∈ g.members,
        (∃ g', (w.slots s).state = some g' ∧ id ∈ g'.members) ∨ id = assigned := by
      intro s g hg id hid
      rw [hmoves.ran_state] at hg
      split at hg
      · rename_i hs
        subst hs
        rcases Stage.run_rebalance (hvalid.valid s) hchecked hg hid with hnew | ⟨g', hg', hold, -⟩
        · exact .inr hnew
        · exact .inl ⟨g', hg', hold⟩
      · exact .inl ⟨g, hg, hid⟩
    have hfresh : assigned ∉ w.issued := by
      cases hmoves with
      | run slot reading stage assigned r state here new exec => exact new
    rw [OnlyNew, hissued]
    refine ⟨⟨fun id hid => List.mem_cons_of_mem _ hid, fun id hid s hlacks g hg hmem => ?_⟩,
      fun s g hg id hmem => ?_⟩
    · rcases hmembers s g hg id hmem with ⟨g', hg', hold⟩ | rfl
      · exact hlacks g' hg' hold
      · exact hfresh hid
    · rw [hissued]
      rcases hmembers s g hg id hmem with ⟨g', hg', hold⟩ | rfl
      · exact List.mem_cons_of_mem _ (hknown s g' hg' id hold)
      · exact List.mem_cons_self
  | swept slot now =>
    have hadvanced := advanceGroup_slot now (hvalid.valid slot)
    have hmembers : ∀ s g, (w'.slots s).state = some g → ∀ id ∈ g.members,
        ∃ g', (w.slots s).state = some g' ∧ id ∈ g'.members := by
      intro s g hg id hid
      rw [hmoves.swept_state] at hg
      split at hg
      · rename_i hs
        subst hs
        rw [hg] at hadvanced
        obtain ⟨g', hg', hold, -⟩ := hadvanced.rebalance hid
        exact ⟨g', hg', hold⟩
      · exact ⟨g, hg, hid⟩
    rw [OnlyNew, hissued]
    refine ⟨⟨fun id hid => hid, fun id hid s hlacks g hg hmem => ?_⟩, fun s g hg id hmem => ?_⟩
    · obtain ⟨g', hg', hold⟩ := hmembers s g hg id hmem
      exact hlacks g' hg' hold
    · rw [hissued]
      obtain ⟨g', hg', hold⟩ := hmembers s g hg id hmem
      exact hknown s g' hg' id hold

/-- A first join that has put its member on file waits for it. -/
theorem enter_next {request : JoinRequest} {r : Except Halt Next}
    (hran : Stage.Ran now assigned (.enter request) s r s') {next : Next} (hr : r = .ok next) :
    ∃ target, next = .section (.settle (request.idFor assigned) target) ∧
      ∀ k, s' = some k → k.rebalanceId = target := by
  subst hr
  cases hran with
  | done changed advanced done =>
    generalize hr : (Except.ok next : Except Halt Next) = r at done
    cases done with
    | enter entered =>
      cases entered with
      | founded new =>
        cases hr
        exact ⟨1, by rw [JoinRequest.idFor, if_pos new], by rintro k ⟨⟩; rfl⟩
      | unknown old => cases hr
      | rejected e why => cases hr
      | full new why => cases hr
      | accepted fits room =>
        cases hr
        exact ⟨_, rfl, by rintro k ⟨⟩; rfl⟩

/-- A look goes on with another look, or ends. -/
theorem look_next {p : String × Nat} {r : Except Halt Next} (hstage : stage.awaits = some p)
    (hran : Stage.Ran now assigned stage s r s') {next : Next} (hr : r = .ok next) :
    (∃ stage' : Stage, stage'.awaits = some p ∧ next = .section stage') ∨
      ∃ reply, next = .reply (.ok reply) false := by
  subst hr
  cases hran with
  | done changed advanced done =>
    cases stage with
    | settle id' target =>
      cases done
      exact .inl ⟨.await id' target, hstage, rfl⟩
    | await id' target =>
      cases done with
      | await awaited =>
        cases awaited with
        | told m outcome same member result => exact .inr ⟨_, rfl⟩
        | waiting m same member result => exact .inl ⟨.await id' target, hstage, rfl⟩
    | _ => cases hstage

/-- The section of an operation keeps track of the member that it has generated. -/
theorem Task.Own.run {slot : Nat} {reading : Option Nat} {r : Except Halt Next}
    {state : Option GroupState} (h : t.Own w) (hcurrent : t.Current w)
    (here : t.point = .running slot reading stage) (hnew : assigned ∉ w.issued)
    (hran : Stage.Ran now assigned stage (w.slots slot).state r state) (hknown : w.Known)
    (hcalm : ∀ p ∈ t.awaits, Undisturbing w (.ran slot now assigned t.generated stage) p)
    (honly : OnlyNew w (w.settled slot state (holdsLock r) assigned)) :
    Task.Own (w.settled slot state (holdsLock r) assigned)
      { t with
        generated := if stage.generates then some assigned else t.generated
        point := store.resume t.call.group slot r } := by
  have hstates : ∀ s, ((w.settled slot state (holdsLock r) assigned).slots s).state =
      if s = slot then state else (w.slots s).state := by
    intro s
    by_cases hs : s = slot <;> simp [Shared.settled, hs]
  intro id hid
  by_cases hgenerates : stage.generates = true
  · -- the section has just generated the id, which nobody has elsewhere
    simp only [hgenerates, if_true, Option.some.injEq] at hid
    subst hid
    refine ⟨List.mem_cons_self, ?_⟩
    have helsewhere : ∀ s, s ≠ slot →
        (w.settled slot state (holdsLock r) assigned).Lacks s assigned := by
      intro s hs g hg hmem
      rw [hstates, if_neg hs] at hg
      exact hnew (hknown s g hg assigned hmem)
    cases stage with
    | enter request =>
      have hfirst : request.memberId = "" := by
        simpa [Stage.generates] using hgenerates
      cases hr : r with
      | ok next =>
        obtain ⟨target, rfl, -⟩ := enter_next hran hr
        subst hr
        have hown : request.idFor assigned = assigned := if_pos hfirst
        exact ⟨⟨target, by rw [hown]; rfl⟩, helsewhere⟩
      -- the join is refused, and nobody has taken its id
      | error e =>
        subst hr
        intro _ _ s
        by_cases hs : s = slot
        · subst hs
          intro g hg hmem
          rw [hstates, if_pos rfl] at hg
          subst hg
          obtain ⟨g', hg', hold⟩ := enter_fails hran hmem
          exact hnew (hknown s g' hg' assigned hold)
        · exact helsewhere s hs
    | _ => cases hgenerates
  -- the id is older, and the join looks at the group again
  · simp only [hgenerates] at hid
    replace hid : t.generated = some id := hid
    obtain ⟨hissued, hwaits⟩ := h id hid
    rw [here] at hwaits
    obtain ⟨⟨target, hstage⟩, hothers⟩ := hwaits
    have hawaits : t.awaits = some (slot, id, target) := by
      simp [Task.awaits, hid, here, Point.awaits, hstage]
    refine ⟨honly.1 hissued, ?_⟩
    have helsewhere : ∀ s, s ≠ slot →
        (w.settled slot state (holdsLock r) assigned).Lacks s id :=
      fun s hs => honly.2 id hissued s (hothers s hs)
    cases hr : r with
    | ok next =>
      rcases look_next hstage hran hr with ⟨stage', hstage', rfl⟩ | ⟨reply, rfl⟩
      · subst hr
        exact ⟨⟨target, hstage'⟩, helsewhere⟩
      · subst hr
        intro e he
        cases he
    -- the look does not fail, as nothing has disturbed the rebalance
    | error e =>
      subst hr
      intro _ _ s
      by_cases hs : s = slot
      · subst hs
        intro g hg
        rw [hstates, if_pos rfl] at hg
        subst hg
        obtain ⟨hstarts, hroom⟩ := hcalm _ hawaits
        refine look_fails hstage (hcurrent s id target hawaits) (fun g hg => ?_)
          (fun g hg => hroom g hg) hran
        -- the section of the join itself starts no rebalance
        simp only [Event.restarts, beq_self_eq_true, Bool.true_and, Bool.or_eq_false_iff, hg,
          Option.any_some] at hstarts
        exact hstarts.1
      · exact helsewhere s hs

/-- An operation that has not generated an id, and will not at this point. -/
private theorem Task.Own.none (h : t.Own w) (hpoint : ∀ id, t.generated = some id →
    (id ∈ w.issued ∧ match t.point with
      | .locking slot _ stage => stage.AwaitsFor id ∧ ∀ slot', slot' ≠ slot → w.Lacks slot' id
      | .running slot _ stage => stage.AwaitsFor id ∧ ∀ slot', slot' ≠ slot → w.Lacks slot' id
      | .reclaiming _ outcome => ∀ e, outcome = .error e → ∀ slot, w.Lacks slot id
      | .dropping _ outcome => ∀ e, outcome = .error e → ∀ slot, w.Lacks slot id
      | .returned outcome => ∀ e, outcome = .error e → ∀ slot, w.Lacks slot id
      | _ => False) → False) (point : Point store.Work) : Task.Own w' { t with point } :=
  fun id hid => (hpoint id hid (h id hid)).elim

/-- A step of an operation keeps track of the member that it has generated. -/
theorem Task.Own.moves {e : Event} (h : t.Own w) (hcurrent : t.Current w)
    (hmoves : Moves store w t e w' t') (hvalid : ValidGroups w) (hsane : t.Sane)
    (hpast : t.Past w.clock) (hknown : w.Known)
    (hcalm : ∀ p ∈ t.awaits, Undisturbing w e p) : t'.Own w' := by
  obtain ⟨honly, -⟩ := hmoves.onlyNew hvalid hsane hpast hknown
  have hkept := h.mono honly
  cases hmoves with
  -- only between its sections has an operation a member of its own
  | refuse e here why
  | find slot here valid free there
  | absent here valid free absent old
  | sweep left here valid free absent first all
  | skip now slot name left here there used
  | keep now slot name left r state here there unused unlocked exec stays
  | discard now slot name left changed here there unused unlocked exec
  | crash now slot name text left state here there unused unlocked exec
  | full now here why
  | create now here room
  | read slot here
  | work slot work work' content here step
  | stored slot work content result here step =>
    exact h.none (fun _ _ hown => by rw [here] at hown; exact hown.2) _
  -- taking the lock and leaving the slot change nothing that is recorded
  | lock slot reading stage here unlocked
  | reclaim slot outcome here free same idle
  | leaveSlot slot outcome here free why
  | drop slot outcome here =>
    intro id hid
    have hown := hkept id hid
    rw [here] at hown
    exact hown
  | run slot reading stage assigned r state here new exec =>
    unfold Task.Sane at hsane
    rw [here] at hsane
    have hran := Stage.run_ran (reading.getD w.clock) assigned stage (hvalid.valid slot) hsane
    rw [exec] at hran
    exact h.run hcurrent here new hran hknown hcalm honly

/-- No operation begins with waiting for an outcome. -/
theorem Call.stage_awaits (call : Call) : call.stage.awaits = none := by
  cases call <;> rfl

theorem Task.Current.of_point (h : t.point.awaits = none) : t.Current w := by
  intro slot id target hawaits
  obtain ⟨-, -, hpoint⟩ := Option.bind_eq_some_iff.mp hawaits
  rw [h] at hpoint
  cases hpoint

/-- The section of an operation keeps the rebalance that it goes on to wait for. -/
theorem Task.Current.run {slot : Nat} {reading : Option Nat} {r : Except Halt Next}
    {state : Option GroupState} (h : t.Own w) (here : t.point = .running slot reading stage)
    (hran : Stage.Ran now assigned stage (w.slots slot).state r state)
    (hkept : t.Current (w.settled slot state (holdsLock r) assigned)) :
    Task.Current (w.settled slot state (holdsLock r) assigned)
      { t with
        generated := if stage.generates then some assigned else t.generated
        point := store.resume t.call.group slot r } := by
  intro slot' id target hawaits k hk hid
  -- it goes on to wait only when its section says so
  obtain ⟨id', hgenerated, hpoint⟩ := Option.bind_eq_some_iff.mp hawaits
  cases r with
  | error e => cases hpoint
  | ok next =>
    cases next with
    | store commits => cases hpoint
    | reply result reclaim => cases reclaim <;> cases hpoint
    | «section» stage' =>
      obtain ⟨p, hp, heq⟩ := Option.map_eq_some_iff.mp hpoint
      obtain ⟨rfl, rfl⟩ := Prod.mk.inj heq
      have hstate : state = some k := by
        simpa [Shared.settled] using hk
      -- the join itself has set what it waits for
      by_cases hgenerates : stage.generates = true
      · cases stage with
        | enter request =>
          obtain ⟨target', hnext, hrebalance⟩ := enter_next hran rfl
          cases hnext
          cases hp
          exact hrebalance k hstate
        | _ => cases hgenerates
      · -- the join goes on with what it has waited for
        replace hgenerated : t.generated = some id' := by simpa [hgenerates] using hgenerated
        obtain ⟨-, hwaits⟩ := h id' hgenerated
        rw [here] at hwaits
        obtain ⟨⟨target', hstage⟩, -⟩ := hwaits
        rcases look_next hstage hran rfl with ⟨stage'', hstage'', hnext⟩ | ⟨reply, hnext⟩
        · cases hnext
          refine hkept slot id target ?_ k hk hid
          rw [hstage''] at hp
          simp [Task.awaits, hgenerated, here, Point.awaits, hstage, hp]
        · cases hnext

/-- A step of an operation keeps the rebalance that it waits for. -/
theorem Task.Current.moved {e : Event} (h : t.Current w) (hown : t.Own w)
    (hmoves : Moves store w t e w' t') (hvalid : ValidGroups w) (hsane : t.Sane)
    (hpast : t.Past w.clock) (hcalm : ∀ p ∈ t.awaits, Undisturbing w e p) : t'.Current w' := by
  have hkept := h.moves hown hmoves hvalid hsane hpast fun p hp => (hcalm p hp).1
  cases hmoves with
  -- a point without a section waits for nothing
  | refuse e here why
  | absent here valid free absent old
  | sweep left here valid free absent first all
  | skip now slot name left here there used
  | keep now slot name left r state here there unused unlocked exec stays
  | discard now slot name left changed here there unused unlocked exec
  | crash now slot name text left state here there unused unlocked exec
  | full now here why
  | create now here room
  | work slot work work' content here step
  | stored slot work content result here step
  | reclaim slot outcome here free same idle
  | leaveSlot slot outcome here free why
  | drop slot outcome here => exact .of_point rfl
  | find slot here valid free there =>
    apply Task.Current.of_point
    obtain ⟨call, generated, point⟩ := t
    cases call <;> rfl
  | read slot here =>
    apply Task.Current.of_point
    rw [Point.awaits, Call.stage_awaits]
    rfl
  | lock slot reading stage here unlocked =>
    intro slot' id target hawaits
    refine hkept slot' id target ?_
    rw [← hawaits, Task.awaits, Task.awaits, here]
    rfl
  | run slot reading stage assigned r state here new exec =>
    unfold Task.Sane at hsane
    rw [here] at hsane
    have hran := Stage.run_ran (reading.getD w.clock) assigned stage (hvalid.valid slot) hsane
    rw [exec] at hran
    exact .run hown here hran hkept

end Steps

/-- In a run in which no first join is disturbed, operations keep track of the members that they
have generated, and of the rebalances that these have joined. -/
theorem Run.own {w : System store} {l : Ledger} (hrun : Run store (fun w _ e => Undisturbed w e) w l) :
    w.shared.Known ∧ ∀ t ∈ w.tasks, t.Own w.shared ∧ t.Current w.shared := by
  induction hrun with
  | init clock content l =>
    refine ⟨fun slot g hg => ?_, fun t ht => absurd ht List.not_mem_nil⟩
    cases hg
  | step run meets step ih =>
    obtain ⟨hknown, hown⟩ := ih
    obtain ⟨hvalid, hsane⟩ := run.validGroups
    have hpast := run.past
    cases step with
    | tick clock later => exact ⟨hknown, hown⟩
    | call call =>
      refine ⟨hknown, fun t ht => ?_⟩
      rcases List.mem_cons.mp ht with rfl | ht
      · exact ⟨fun id hid => (nomatch hid), .of_point rfl⟩
      · exact hown t ht
    | @move w w' e t t' before after moves =>
      have hmem : t ∈ before ++ t :: after := by simp
      obtain ⟨honly, hknown'⟩ := moves.onlyNew hvalid (hsane t hmem) (hpast t hmem) hknown
      -- what becomes of an operation that stands by
      have hother : ∀ u ∈ before ++ t :: after, u.Own w' ∧ u.Current w' := by
        intro u hu
        obtain ⟨hu₁, hu₂⟩ := hown u hu
        exact ⟨hu₁.mono honly, hu₂.moves hu₁ moves hvalid (hsane t hmem) (hpast t hmem)
          fun p hp => (meets u hu p hp).1⟩
      refine ⟨hknown', fun u hu => ?_⟩
      simp only [List.mem_append, List.mem_cons] at hu
      rcases hu with hu | rfl | hu
      · exact hother u (by simp [hu])
      · obtain ⟨ht₁, ht₂⟩ := hown t hmem
        exact ⟨ht₁.moves ht₂ moves hvalid (hsane t hmem) (hpast t hmem) hknown (meets t hmem),
          ht₂.moved ht₁ moves hvalid (hsane t hmem) (hpast t hmem) (meets t hmem)⟩
      · exact hother u (by simp [hu])

/-- **A failed first join leaves no ghost member** when it is not disturbed while it waits. -/
theorem undisturbed_noGhosts (store : OffsetStore) :
    NoGhosts store fun w _ e => Undisturbed w e := by
  intro w l hrun t ht _ id e hid houtcome slot g hg
  obtain ⟨-, hpoint⟩ := (hrun.own.2 t ht).1 id hid
  unfold Point.outcome at houtcome
  split at houtcome
  · rename_i here
    rw [here] at hpoint
    exact hpoint e (Option.some.inj houtcome) slot g hg
  · rename_i here
    rw [here] at hpoint
    exact hpoint e (Option.some.inj houtcome) slot g hg
  · rename_i here
    rw [here] at hpoint
    exact hpoint e (Option.some.inj houtcome) slot g hg
  · cases houtcome

/-- The join of the third member fails, when the session of the member is over. -/
theorem undisturbed_noGhosts_lifetime : ∃ (w : System promptStore) (l : Ledger),
    Run promptStore (fun w _ e => Undisturbed w e) w l ∧
      ∃ t ∈ w.tasks, ∃ e, t.generated = some "third" ∧ t.point.outcome = some (.error e) ∧
        ∃ g, (w.shared.slots 0).state = some g ∧ "first" ∈ g.members ∧ "third" ∉ g.members := by
  obtain ⟨w, l, hrun, hfails⟩ := promptRun_exists (fun w _ e => Undisturbed w e)
    (fun w _ e => decide (Undisturbed w e)) (lifetime ++ looking)
    (fun w _ => w.tasks.any (fun t => t.call.isFirstJoin && t.generated == some "third" &&
        t.point.outcome == some (.error (.kafka .unknownMemberId))) && w.has 0 "first")
    (fun _ _ _ => of_decide_eq_true) (by decide +kernel)
  simp only [Bool.and_eq_true, List.any_eq_true, beq_iff_eq] at hfails
  obtain ⟨⟨t, ht, ⟨hfirst, hid⟩, houtcome⟩, hmember⟩ := hfails
  obtain ⟨g, hg, hmember⟩ := (Option.any_eq_true _ _).mp hmember
  exact ⟨w, l, hrun, t, ht, _, hid, houtcome, g, hg, ExtTreeMap.mem_iff_contains.mpr hmember,
    undisturbed_noGhosts promptStore w l hrun t ht hfirst "third" _ hid houtcome 0 g hg⟩

/-! ## Two joins at the same moment -/

/-- Two clients join an empty group. The second one comes when the first one has put its member
on file, and has not looked at the group again. -/
def twoJoins : List Turn :=
  [.call (.join "group" (consumer 10000 20000)), .move 0 "", .move 0 "", .move 0 "", .move 0 "",
    .move 0 "first",
    .call (.join "group" (consumer 10000 20000)), .move 0 "", .move 0 "", .move 0 "",
    .move 0 "second",
    .move 1 "", .move 1 "u1", .move 1 "", .move 1 "u2", .move 1 ""]

/-- The first join is told that there is a rebalance, and its member stays in the group. -/
theorem twoJoins_ghost : ¬ NoGhosts promptStore fun _ _ _ => True := by
  intro hnone
  obtain ⟨w, l, hrun, hghost⟩ := promptRun_exists (fun _ _ _ => True) (fun _ _ _ => true) twoJoins
    (fun w _ => w.tasks.any (fun t => t.call.isFirstJoin && t.generated == some "first" &&
        t.point.outcome == some (.error (.kafka .rebalanceInProgress))) &&
      (w.shared.slots 0).state.any fun g => g.members.contains "first")
    (fun _ _ _ _ => trivial) (by decide +kernel)
  simp only [Bool.and_eq_true, List.any_eq_true, beq_iff_eq] at hghost
  obtain ⟨⟨t, ht, ⟨hfirst, hid⟩, houtcome⟩, hmember⟩ := hghost
  cases hg : (w.shared.slots 0).state with
  | none =>
    rw [hg] at hmember
    cases hmember
  | some g =>
    rw [hg, Option.any_some] at hmember
    exact hnone w l hrun t ht hfirst "first" _ hid houtcome 0 g hg
      (ExtTreeMap.mem_iff_contains.mpr hmember)

end Walstream.Group

import Walstream.Group.Effects
import Walstream.Group.Schedules

/-!
# The time that members are promised

A member is promised its session timeout from when it was last heard of, and its rebalance
timeout from when a rebalance was started. The coordinator keeps these promises in every run
in which no deadline is set with a reading of the clock that is out of date (`Prompt`). `join`
and the sweep read the clock before they have the lock of the slot, so that there are other
runs. A reading that is out of date does no harm as long as no deadline is set with it.
-/

namespace Walstream.Group

open Interaction Log
open Std (ExtTreeMap)

variable {store : OffsetStore} {clock now : Nat} {record : Record} {g k : GroupState}
  {s s' : Option GroupState} {assigned : String} {stage : Stage}

/-! ## The promises -/

/-- The slot that a step lets advance, and the reading of the clock it is done with. -/
def Event.advances : Event → Option (Nat × Nat)
  | quiet => none
  | ran slot now _ _ _ => some (slot, now)
  | swept slot now => some (slot, now)

/-- `advance_group` removes a member only when its time is over: its session, or, if it has not
rejoined, the rebalance. -/
def KeepsPromises (clock now : Nat) (record : Record) (s : Option GroupState) : Prop :=
  ∀ (g : GroupState) (id : String) (m : MemberState), s = some g → g.members[id]? = some m →
    (∀ k, ((advanceGroup now).exec s).2 = some k → id ∉ k.members) →
    record.active id + m.sessionTimeout ≤ clock ∨
      g.phase = .joining ∧ m.joinedRebalance ≠ g.rebalanceId ∧
        record.started + m.rebalanceTimeout ≤ clock

/-- `advance_group` sets deadlines: a rebalance is started or completed. -/
def setsDeadlines (now : Nat) (s : Option GroupState) : Bool :=
  s.any fun g => g.due now || g.completes now

/-- The reading of the clock that a step sets deadlines with, unless it is read with the lock
held: in the first section of a join and in a sweep. -/
def Event.sets {Content : Type} (w : Shared Content) : Event → Option Nat
  | ran slot now _ _ (.enter request) =>
    if setsDeadlines now (w.slots slot).state || (reached now (w.slots slot).state).any request.fits
    then some now else none
  | swept slot now => if setsDeadlines now (w.slots slot).state then some now else none
  | _ => none

/-- No deadline is set with a reading of the clock that is out of date. -/
def Prompt (w : System store) (e : Event) : Prop := ∀ now ∈ e.sets w.shared, now = w.shared.clock

instance (w : System store) (e : Event) : Decidable (Prompt w e) :=
  inferInstanceAs (Decidable (∀ now ∈ e.sets w.shared, now = w.shared.clock))

/-! ## Records -/

namespace Record

@[simp] theorem turn_none : record.turn clock s none = record := by
  cases s <;> rfl

@[simp] theorem turn_some : record.turn clock none (some g) = { record with started := clock } := rfl

theorem turn_same (h : k.rebalanceId = g.rebalanceId) :
    record.turn clock (some g) (some k) = record := by
  simp [turn, begins, h]

theorem turn_other (h : g.rebalanceId ≠ k.rebalanceId) :
    record.turn clock (some g) (some k) = { record with started := clock } := by
  simp [turn, begins, h]

end Record

/-! ## Deadlines -/

/-- The deadlines of the group honour the promises. -/
structure Timed (clock : Nat) (record : Record) (g : GroupState) : Prop where
  active_le : ∀ (id : String) m, g.members[id]? = some m → record.active id ≤ clock
  deadline : ∀ (id : String) m, g.members[id]? = some m →
    record.active id + m.sessionTimeout ≤ m.deadline
  started_le : g.phase = .joining → record.started ≤ clock
  rejoin : g.phase = .joining → ∀ (id : String) m, g.members[id]? = some m →
    record.started + m.rebalanceTimeout ≤ g.phaseDeadline

/-- If the slot has a group. -/
def TimedSlot (clock : Nat) (record : Record) (s : Option GroupState) : Prop :=
  ∀ g, s = some g → Timed clock record g

namespace Timed

/-- Fewer members in the same phase. -/
theorem sub (h : Timed clock record g) (hphase : k.phase = g.phase)
    (htime : k.phaseDeadline = g.phaseDeadline)
    (hmembers : ∀ (id : String) m, k.members[id]? = some m → g.members[id]? = some m) :
    Timed clock record k where
  active_le := fun id m hid => h.active_le id m (hmembers id m hid)
  deadline := fun id m hid => h.deadline id m (hmembers id m hid)
  started_le := fun hk => h.started_le (hphase ▸ hk)
  rejoin := fun hk id m hid => by
    rw [htime]
    exact h.rejoin (hphase ▸ hk) id m (hmembers id m hid)

/-- A rebalance is started for some of the members. -/
theorem restarted (h : Timed clock record g) {r : Nat}
    (hmembers : ∀ (id : String) m, k.members[id]? = some m → g.members[id]? = some m) :
    Timed clock { record with started := clock } (k.restarted clock r) where
  active_le := fun id m hid => by
    obtain ⟨m', hm', rfl⟩ := GroupState.restarted_getElem?.mp hid
    exact h.active_le id m' (hmembers id m' hm')
  deadline := fun id m hid => by
    obtain ⟨m', hm', rfl⟩ := GroupState.restarted_getElem?.mp hid
    exact h.deadline id m' (hmembers id m' hm')
  started_le := fun _ => le_rfl
  rejoin := fun _ id m hid => by
    obtain ⟨m', hm', rfl⟩ := GroupState.restarted_getElem?.mp hid
    show clock + m'.rebalanceTimeout ≤ latestRejoin k.members clock clock
    exact le_latestRejoin clock clock hm'

/-- The members that are left are told the outcome of a generation. -/
theorem finalized (h : Timed clock record g) {name : String}
    (hmembers : ∀ (id : String) m, k.members[id]? = some m → g.members[id]? = some m) :
    Timed clock record (k.finalized clock name) where
  active_le := fun id m hid => by
    obtain ⟨m', hm', rfl⟩ := GroupState.finalized_getElem?.mp hid
    exact h.active_le id m' (hmembers id m' hm')
  deadline := fun id m hid => by
    obtain ⟨m', hm', rfl⟩ := GroupState.finalized_getElem?.mp hid
    have := h.active_le id m' (hmembers id m' hm')
    show record.active id + m'.sessionTimeout ≤ clock + m'.sessionTimeout
    omega
  started_le := nofun
  rejoin := nofun

/-- Members get a new deadline, or keep the old one. -/
theorem renewed (h : Timed clock record g) {f : String → MemberState → MemberState}
    (hmap : g.Mapped k f) (hphase : k.phase ≠ .joining ∨
      k.phase = g.phase ∧ k.phaseDeadline = g.phaseDeadline)
    (hf : ∀ id m, (f id m).sessionTimeout = m.sessionTimeout ∧
      ((f id m).deadline = m.deadline ∨ (f id m).deadline = clock + m.sessionTimeout)) :
    Timed clock record k where
  active_le := fun id m hid => by
    obtain ⟨m', hm', rfl⟩ := hmap.getElem?.mp hid
    exact h.active_le id m' hm'
  deadline := fun id m hid => by
    obtain ⟨m', hm', rfl⟩ := hmap.getElem?.mp hid
    obtain ⟨hsession, hdeadline⟩ := hf id m'
    have hold := h.deadline id m' hm'
    have hactive := h.active_le id m' hm'
    rw [hsession]
    rcases hdeadline with heq | heq <;> omega
  started_le := fun hk => by
    rcases hphase with hne | ⟨heq, -⟩
    · exact absurd hk hne
    · exact h.started_le (heq ▸ hk)
  rejoin := fun hk id m hid => by
    obtain ⟨m', hm', rfl⟩ := hmap.getElem?.mp hid
    rcases hphase with hne | ⟨heq, htime⟩
    · exact absurd hk hne
    · rw [hmap.rebalanceTimeout, htime]
      exact h.rejoin (heq ▸ hk) id m' hm'

theorem touch (h : Timed clock record g) {memberId : String} :
    Timed clock record (g.touch clock memberId) :=
  h.renewed GroupState.touch_mapped (.inr ⟨rfl, rfl⟩) fun id m => by
    split
    · exact ⟨rfl, .inr rfl⟩
    · exact ⟨rfl, .inl rfl⟩

theorem install (h : Timed clock record g)
    {installed : ExtTreeMap String (List UInt8) compare} :
    Timed clock record (g.install clock installed) :=
  h.renewed GroupState.install_mapped (.inl (by nofun)) fun id m => by
    cases installed[id]? with
    | none => exact ⟨rfl, .inl rfl⟩
    | some assignment => exact ⟨rfl, .inr rfl⟩

/-- A member with a new deadline has been heard of. -/
theorem heard (h : Timed clock record g) {id : String}
    (hid : ∀ m, g.members[id]? = some m → m.deadline = clock + m.sessionTimeout) :
    Timed clock (record.hear clock (some id)) g where
  active_le := fun id' m hm => by
    show Function.update record.active id clock id' ≤ clock
    rw [Function.update_apply]
    split
    · exact le_rfl
    · exact h.active_le id' m hm
  deadline := fun id' m hm => by
    show Function.update record.active id clock id' + _ ≤ _
    rw [Function.update_apply]
    split
    · rename_i heq
      subst heq
      exact (hid m hm).ge
    · exact h.deadline id' m hm
  started_le := h.started_le
  rejoin := h.rejoin

end Timed

/-! ## Sections -/

/-- A reading of the clock that is out of date may be used as long as it sets no deadline. -/
theorem TimedSlot.advanced {r : Except Halt Bool} (h : TimedSlot clock record s)
    (hprompt : setsDeadlines now s = true → now = clock) (hadvanced : AdvancedSlot now s r s') :
    TimedSlot clock (record.turn clock s s') s' := by
  cases hadvanced with
  | empty => exact nofun
  | @group g r s' hadvanced =>
    have hg := h g rfl
    -- whoever lasts is as before
    have hlasting : ∀ (id : String) m, (g.lasting now).members[id]? = some m →
        g.members[id]? = some m := fun id m hid => (GroupState.lasting_getElem?.mp hid).1
    cases hadvanced with
    | idle phase live time =>
      rintro _ ⟨⟩
      rw [Record.turn_same (by rfl)]
      exact hg
    | vanished dead => exact nofun
    -- the rebalance sets a deadline, so that the reading is the present time
    | restarted phase left why =>
      obtain rfl : now = clock :=
        hprompt (by simp [setsDeadlines, GroupState.due_of_restarted phase left why])
      rintro _ ⟨⟩
      rw [Record.turn_other (Nat.ne_of_lt (Nat.lt_succ_self _))]
      exact hg.restarted fun id m hid => (GroupState.keep_getElem?.mp hid).1
    | deserted phase time nobody => exact nofun
    | waiting changed phase laggard =>
      rintro _ ⟨⟩
      rw [Record.turn_same (by simp)]
      exact hg.sub (by simp) (by simp) hlasting
    -- so does its completion
    | completed name phase left joined room offered =>
      obtain rfl : now = clock := hprompt (by
        simp [setsDeadlines, GroupState.completes_of_completed phase left joined room])
      rintro _ ⟨⟩
      have hsame : ((g.lasting now).finalized now name).rebalanceId = g.rebalanceId :=
        GroupState.lasting_rebalanceId
      rw [Record.turn_same hsame]
      exact hg.finalized hlasting
    -- nothing is set when the generations are exhausted
    | exhausted phase left joined full =>
      rintro _ ⟨⟩
      rw [Record.turn_same (by simp)]
      exact hg.sub (by simp) (by simp) hlasting

/-- A member that has just joined. -/
theorem Timed.registered {request : JoinRequest} {id : String} (h : Timed clock record g)
    (hphase : g.phase = .joining) :
    Timed clock (record.hear clock (some id)) (request.registered clock id g) where
  active_le := fun k m hk => by
    show Function.update record.active id clock k ≤ clock
    rw [Function.update_apply]
    obtain ⟨rfl, -⟩ | ⟨hne, hk⟩ := JoinRequest.registered_getElem?.mp hk
    · rw [if_pos rfl]
    · rw [if_neg hne]
      exact h.active_le k m hk
  deadline := fun k m hk => by
    show Function.update record.active id clock k + _ ≤ _
    rw [Function.update_apply]
    obtain ⟨rfl, rfl⟩ | ⟨hne, hk⟩ := JoinRequest.registered_getElem?.mp hk
    · rw [if_pos rfl]
      exact le_rfl
    · rw [if_neg hne]
      exact h.deadline k m hk
  started_le := fun _ => h.started_le hphase
  rejoin := fun _ k m hk => by
    have hstarted := h.started_le hphase
    have hlatest : clock + m.rebalanceTimeout ≤ (request.registered clock id g).phaseDeadline :=
      le_latestRejoin clock _ hk
    show record.started + _ ≤ _
    omega

/-- The first member of a group. -/
theorem Timed.found {request : JoinRequest} :
    Timed clock ({ record with started := clock }.hear clock (some assigned))
      (request.found clock assigned) where
  active_le := fun k m hk => by
    obtain ⟨rfl, -⟩ := JoinRequest.found_getElem?.mp hk
    show Function.update record.active k clock k ≤ clock
    rw [Function.update_self]
  deadline := fun k m hk => by
    obtain ⟨rfl, rfl⟩ := JoinRequest.found_getElem?.mp hk
    show Function.update record.active k clock k + _ ≤ _
    rw [Function.update_self]
    exact le_rfl
  started_le := fun _ => le_rfl
  rejoin := fun _ k m hk => by
    obtain ⟨rfl, rfl⟩ := JoinRequest.found_getElem?.mp hk
    exact le_rfl

theorem touch_deadline {memberId : String} {m : MemberState}
    (h : (g.touch now memberId).members[memberId]? = some m) :
    m.deadline = now + m.sessionTimeout := by
  obtain ⟨m', -, rfl⟩ := GroupState.touch_getElem?.mp h
  rw [if_pos rfl]
  rfl

/-- A change of a section keeps the deadlines. -/
theorem TimedSlot.changed {o : Option String} (h : TimedSlot clock record s)
    (hchanged : Stage.Changed clock assigned stage s o s') :
    TimedSlot clock ((record.turn clock s s').hear clock o) s' := by
  cases hchanged with
  -- the founder's deadlines are set now
  | founded new =>
    rintro _ ⟨⟩
    rw [Record.turn_some]
    exact Timed.found
  | @joined request g fits room =>
    rintro _ ⟨⟩
    by_cases hphase : g.phase = .joining
    · have hsame : g.rejoining clock = g := if_pos hphase
      rw [hsame, Record.turn_same (by rfl)]
      exact (h g rfl).registered hphase
    · -- the join starts the rebalance that it joins
      have hnew : g.rejoining clock = g.restarted clock (g.rebalanceId + 1) := if_neg hphase
      rw [hnew, Record.turn_other (Nat.ne_of_lt (Nat.lt_succ_self _))]
      exact ((h g rfl).restarted fun id m hid => hid).registered rfl
  -- whoever is heard gets a deadline of its own from now on
  | installed installed phase =>
    rintro _ ⟨⟩
    rw [Record.turn_same (by rfl)]
    exact (h _ rfl).install.touch.heard fun m hm => touch_deadline hm
  | touched id other =>
    rintro _ ⟨⟩
    rw [Record.turn_same (by rfl)]
    exact (h _ rfl).touch.heard fun m hm => touch_deadline hm
  | deserted => exact nofun
  -- those who remain keep their deadlines
  | @remained id g phase =>
    rintro _ ⟨⟩
    rw [Record.turn_same (by simp [GroupState.without])]
    exact (h g rfl).sub (by simp [GroupState.without]) (by simp [GroupState.without])
      fun k m hk => (GroupState.without_getElem?.mp hk).2
  | @completed id g name phase =>
    rintro _ ⟨⟩
    have hsame : ((g.without id).finalized clock name).rebalanceId = g.rebalanceId :=
      GroupState.keep_rebalanceId
    rw [Record.turn_same hsame]
    exact (h g rfl).finalized fun k m hk => (GroupState.without_getElem?.mp hk).2
  | @restarted id g member phase =>
    rintro _ ⟨⟩
    rw [Record.turn_other (Nat.ne_of_lt (Nat.lt_succ_self _))]
    exact (h g rfl).restarted fun k m hk => (GroupState.without_getElem?.mp hk).2

/-- A section that leaves its slot as it is. -/
theorem Record.turn_self : record.turn clock s s = record := by
  cases s with
  | none => exact Record.turn_none
  | some g => exact Record.turn_same rfl

/-- A change is made with a reading of the clock that is not out of date. -/
theorem Stage.Changed.prompt {o : Option String} (hchanged : Changed now assigned stage s o s')
    (hread : now = clock ∨ stage.Enters)
    (hfits : ∀ request, stage = .enter request → request.fits s = true → now = clock) :
    now = clock := by
  rcases hread with hnow | ⟨request, rfl⟩
  · exact hnow
  apply hfits request rfl
  cases hchanged with
  | founded new => exact beq_iff_eq.mpr new
  | joined fits room => exact JoinRequest.fits_of_accepted fits room
  | touched id other => exact absurd rfl (other request)

/-- A section does not break promises when it sets no deadline with a reading of the clock that
is out of date. -/
theorem TimedSlot.ran (h : TimedSlot clock record s) (hvalid : ValidSlot s)
    (hchecked : stage.Checked) (hread : now = clock ∨ stage.Enters)
    (hprompt : ∀ request, stage = .enter request →
      setsDeadlines now s = true ∨ (reached now s).any request.fits = true → now = clock) :
    TimedSlot clock (record.ran clock now assigned stage s)
      ((stage.run now assigned).exec s).2 := by
  obtain ⟨r, s₁, hexec, hadvanced, hout⟩ := Stage.run_changed now assigned stage hvalid hchecked
  have htimed := h.advanced (fun hsets => hread.elim id fun ⟨request, hrequest⟩ =>
    hprompt request hrequest (.inl hsets)) hadvanced
  unfold Record.ran Record.swept
  simp only [hexec]
  rcases hout with ⟨hsame, hnobody⟩ | ⟨hreached, hchanged⟩
  · -- the section leaves the slot as it is
    simp only [hnobody, hsame, Record.turn_self]
    exact htimed
  · obtain rfl : now = clock := hchanged.prompt hread fun request hrequest hfits =>
      hprompt request hrequest (.inr (by rw [hreached]; exact hfits))
    exact htimed.changed hchanged

theorem timed_slotInvariant :
    SlotInvariant store (fun w _ e => Prompt w e) TimedSlot where
  empty := fun clock record => nofun
  later := fun hle h g hg =>
    { active_le := fun id m hid => ((h g hg).active_le id m hid).trans hle
      deadline := (h g hg).deadline
      started_le := fun hphase => ((h g hg).started_le hphase).trans hle
      rejoin := (h g hg).rejoin }
  ran := fun hprompt _ hread hchecked _ hvalid h => by
    refine h.ran hvalid hchecked hread ?_
    rintro request rfl hsets
    apply hprompt
    rw [Option.mem_def, Event.sets, if_pos (by rwa [Bool.or_eq_true])]
  swept := fun hprompt _ hvalid h => by
    refine h.advanced (fun hsets => ?_) (advanceGroup_slot _ hvalid)
    apply hprompt
    rw [Option.mem_def, Event.sets, if_pos hsets]

/-! ## Removals -/

/-- `advance_group` keeps the promises that the deadlines honour. -/
theorem TimedSlot.keepsPromises (h : TimedSlot clock record s) (hvalid : ValidSlot s)
    (hnow : now ≤ clock) : KeepsPromises clock now record s := by
  rintro g id m rfl hid hgone
  have hg := h g rfl
  by_cases hdead : m.deadline ≤ now
  · have := hg.deadline id m hid
    exact .inl (by omega)
  have hlive : now < m.deadline := not_le.mp hdead
  -- a member that is alive goes only when it has not rejoined in time
  have hlate : g.phase = .joining → (g.lasting now).members[id]? ≠ some m →
      m.joinedRebalance ≠ g.rebalanceId ∧ record.started + m.rebalanceTimeout ≤ clock := by
    intro hphase hnot
    rw [ne_eq, GroupState.lasting_getElem?] at hnot
    simp only [hid, hlive, true_and, Classical.not_imp] at hnot
    have := hg.rejoin hphase id m hid
    exact ⟨hnot.2, by omega⟩
  have hadvanced := advanceGroup_slot now hvalid
  obtain ⟨r, s', hexec⟩ : ∃ r s', (advanceGroup now).exec (some g) = (r, s') := ⟨_, _, rfl⟩
  rw [hexec] at hadvanced hgone
  replace hgone : ∀ k, s' = some k → ∀ m' : MemberState, k.members[id]? ≠ some m' :=
    fun k hk m' hm' => hgone k hk (ExtTreeMap.mem_iff_exists.mpr ⟨m', hm'⟩)
  cases hadvanced with
  | group hadvanced =>
    cases hadvanced with
    | idle phase live time => exact absurd hid (hgone g rfl m)
    | vanished dead =>
      have := dead id m hid
      omega
    | restarted phase left why =>
      have hkept : (g.keep (alive now)).members[id]? = some m :=
        GroupState.keep_getElem?.mpr ⟨hid, decide_eq_true hlive⟩
      exact absurd (GroupState.restarted_getElem?.mpr ⟨m, hkept, rfl⟩) (hgone _ rfl m.restarted)
    | deserted phase time nobody => exact .inr ⟨phase, hlate phase (nobody id m)⟩
    | waiting changed phase laggard => exact .inr ⟨phase, hlate phase (hgone _ rfl m)⟩
    | completed name phase left joined room offered =>
      refine .inr ⟨phase, hlate phase fun hkept => ?_⟩
      exact hgone _ rfl _ (GroupState.finalized_getElem?.mpr ⟨m, hkept, rfl⟩)
    | exhausted phase left joined full => exact .inr ⟨phase, hlate phase (hgone _ rfl m)⟩

/-- In every run all of whose steps satisfy `P`, members are removed only when their promised
time is over. -/
def MembersPromised (store : OffsetStore) (P : System store → Ledger → Event → Prop) : Prop :=
  ∀ (w w' : System store) (l : Ledger) (e : Event), Run store P w l → P w l e →
    Step store w e w' → ∀ slot now, e.advances = some (slot, now) →
      KeepsPromises w.shared.clock now (l slot) (w.shared.slots slot).state

/-- A step lets a slot advance with a reading of the clock that is not in the future. -/
theorem Step.advances_le {w w' : System store} {e : Event} {slot : Nat} (hstep : Step store w e w')
    (hadvances : e.advances = some (slot, now)) (hvalid : ValidGroups w.shared)
    (hsane : ∀ t ∈ w.tasks, t.Sane) (hpast : ∀ t ∈ w.tasks, t.Past w.shared.clock) :
    now ≤ w.shared.clock := by
  cases hstep with
  | tick clock later => cases hadvances
  | call call => cases hadvances
  | @move w w' _ t t' before after moves =>
    have hmem : t ∈ before ++ t :: after := by simp
    cases e with
    | quiet => cases hadvances
    | ran slot now assigned generated stage =>
      cases hadvances
      exact (moves.ran_spec hvalid (hsane t hmem) (hpast t hmem)).1
    | swept slot now =>
      cases hadvances
      exact moves.swept_spec (hpast t hmem)

/-- **Members get their promised time** when no deadline is set with a reading of the clock that
is out of date. -/
theorem prompt_membersPromised (store : OffsetStore) :
    MembersPromised store fun w _ e => Prompt w e := by
  intro w w' l e hrun _ hstep slot now hadvances
  obtain ⟨hvalid, hsane⟩ := hrun.validGroups
  exact (hrun.slotInvariant timed_slotInvariant slot).keepsPromises (hvalid.valid slot)
    (hstep.advances_le hadvances hvalid hsane hrun.past)

/-- The third member is removed when its session is over, twenty milliseconds after it has
joined. -/
theorem prompt_membersPromised_lifetime : ∃ (w w' : System promptStore) (l : Ledger) (e : Event),
    Run promptStore (fun w _ e => Prompt w e) w l ∧ Step promptStore w e w' ∧
      (w.has 0 "third" = true ∧ w'.has 0 "third" = false ∧ w'.has 0 "first" = true) ∧
      ∃ slot now, e.advances = some (slot, now) ∧
        KeepsPromises w.shared.clock now (l slot) (w.shared.slots slot).state := by
  obtain ⟨w, l, e, w', hrun, hprompt, hstep, hremoved⟩ := promptRun_step
    (fun w _ e => Prompt w e) (fun w _ e => decide (Prompt w e)) lifetime (.move 0 "u18")
    (fun w _ e w' => e.advances == some (0, 11020000000) && w.has 0 "third" &&
      !w'.has 0 "third" && w'.has 0 "first")
    (fun _ _ _ => of_decide_eq_true) (by decide +kernel)
  simp only [Bool.and_eq_true, beq_iff_eq, Bool.not_eq_true'] at hremoved
  obtain ⟨⟨⟨hadvances, hbefore⟩, hafter⟩, hother⟩ := hremoved
  exact ⟨w, w', l, e, hrun, hstep, ⟨hbefore, hafter, hother⟩, 0, _, hadvances,
    prompt_membersPromised promptStore w w' l e hrun hprompt hstep 0 _ hadvances⟩

/-! ## A join that comes late -/

/-- The member is removed before its time. -/
def breaksPromise (clock now : Nat) (record : Record) (s : Option GroupState) (id : String) : Bool :=
  match s.bind fun g => (g.members[id]?).map fun m => (g, m) with
  | none => false
  | some (g, m) =>
    ((((advanceGroup now).exec s).2).all fun k => !k.members.contains id) &&
      clock < record.active id + m.sessionTimeout && m.joinedRebalance == g.rebalanceId

theorem not_keepsPromises {id : String} (h : breaksPromise clock now record s id = true) :
    ¬ KeepsPromises clock now record s := by
  intro hkeeps
  unfold breaksPromise at h
  split at h
  · cases h
  · rename_i g m hmember
    simp only [Option.bind_eq_some_iff, Option.map_eq_some_iff, Prod.mk.injEq] at hmember
    obtain ⟨_, hs, _, hid, rfl, rfl⟩ := hmember
    simp only [Bool.and_eq_true, decide_eq_true_eq, beq_iff_eq] at h
    obtain ⟨⟨hgone, hearly⟩, hjoined⟩ := h
    have hremoved : ∀ k, ((advanceGroup now).exec s).2 = some k → id ∉ k.members := by
      intro k hk hmem
      rw [hk, Option.all_some, Bool.not_eq_true', ← Bool.not_eq_true] at hgone
      exact hgone (ExtTreeMap.mem_iff_contains.mp hmem)
    rcases hkeeps _ id _ hs hid hremoved with hsession | ⟨-, hlate, -⟩
    · omega
    · exact hlate hjoined

/-- Another one, with a session of ten milliseconds, reads the clock and has to wait for the
lock, twenty milliseconds. It has joined then, and is about to look at the group again. -/
def lateJoin : List Turn :=
  committing ++ [.call (.join "group" (consumer 10 300000)), .move 0 "", .move 0 "",
    .tick 20000000, .move 1 "", .move 1 "", .move 0 "", .move 0 "second", .move 0 ""]

/-- The look removes the second member although it has just joined. -/
theorem lateJoin_breaksPromise : ¬ MembersPromised promptStore fun _ _ _ => True := by
  intro hpromised
  obtain ⟨w, l, e, w', hrun, -, hstep, hbreaks⟩ := promptRun_step (fun _ _ _ => True)
    (fun _ _ _ => true) lateJoin (.move 0 "u5")
    (fun w l e _ => e.advances == some (0, 20000000) &&
      breaksPromise w.shared.clock 20000000 (l 0) (w.shared.slots 0).state "second")
    (fun _ _ _ _ => trivial) (by decide +kernel)
  rw [Bool.and_eq_true, beq_iff_eq] at hbreaks
  obtain ⟨hadvances, hbreaks⟩ := hbreaks
  exact not_keepsPromises hbreaks (hpromised w w' l e hrun trivial hstep 0 20000000 hadvances)

end Walstream.Group

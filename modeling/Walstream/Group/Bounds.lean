import Walstream.Group.Promises

/-!
# The time that a rebalance may take

A rebalance is started with a deadline that is at most the longest rebalance timeout away. Every
join moves the deadline, so that the rebalance stays bounded as long as no join joins a rebalance
that was started before (`Early`).
-/

namespace Walstream.Group

open Interaction Log
open Std (ExtTreeMap)

variable {store : OffsetStore} {clock now : Nat} {record : Record} {g : GroupState}
  {s s' : Option GroupState} {assigned : String} {stage : Stage}

/-- The longest rebalance timeout that a request may have. -/
def longestRebalance : Nat := fromMillis maxSessionTimeoutMs

/-- In every run all of whose steps satisfy `P`, a group that is waiting for members to rejoin
does so for at most the longest rebalance timeout. -/
def RebalancesBounded (store : OffsetStore) (P : System store → Ledger → Event → Prop) : Prop :=
  ∀ (w : System store) (l : Ledger), Run store P w l → ∀ slot g,
    (w.shared.slots slot).state = some g → g.phase = .joining →
      g.phaseDeadline ≤ (l slot).started + longestRebalance

/-- The slot of a join that is put on file in a rebalance which was there before its section, and
the reading of the clock that it moves the deadline with. -/
def Event.moves {Content : Type} (w : Shared Content) : Event → Option (Nat × Nat)
  | ran slot now _ _ (.enter request) =>
    let waits (s : Option GroupState) : Bool := s.any fun g => g.phase == .joining
    if waits (w.slots slot).state &&
      (reached now (w.slots slot).state).any (fun s => waits s && request.fits s)
    then some (slot, now) else none
  | _ => none

/-- No join moves the deadline of a rebalance with a reading of the clock that is later than the
start of the rebalance. -/
def Early (w : System store) (l : Ledger) (e : Event) : Prop :=
  ∀ p ∈ e.moves w.shared, p.2 ≤ (l p.1).started

instance (w : System store) (l : Ledger) (e : Event) : Decidable (Early w l e) :=
  inferInstanceAs (Decidable (∀ p ∈ e.moves w.shared, p.2 ≤ (l p.1).started))

/-! ## Deadlines of rebalances -/

/-- The rebalance of the group of a slot ends in time. -/
def BoundedSlot (_ : Nat) (record : Record) (s : Option GroupState) : Prop :=
  ∀ g, s = some g → g.phase = .joining → g.phaseDeadline ≤ record.started + longestRebalance

/-- A rebalance that is started now ends in time. -/
theorem restarted_bounded {r : Nat} (hnow : now ≤ clock)
    (hle : ∀ (id : String) m, g.members[id]? = some m → m.rebalanceTimeout ≤ longestRebalance) :
    (g.restarted now r).phaseDeadline ≤ clock + longestRebalance := by
  show latestRejoin g.members now now ≤ clock + longestRebalance
  apply latestRejoin_le
  · omega
  · intro id m hid
    have := hle id m hid
    omega

theorem BoundedSlot.advanced {r : Except Halt Bool} (h : BoundedSlot clock record s)
    (hvalid : ValidSlot s) (hnow : now ≤ clock) (hadvanced : AdvancedSlot now s r s') :
    BoundedSlot clock (record.turn clock s s') s' := by
  cases hadvanced with
  | empty => exact nofun
  -- only a started rebalance has a new deadline; everywhere else the group keeps the one it has
  | @group g r s' hadvanced =>
    have hg := h g rfl
    cases hadvanced with
    | idle phase live time =>
      rintro _ ⟨⟩
      rw [Record.turn_same (by rfl)]
      exact hg
    | vanished dead => exact nofun
    | restarted phase left why =>
      rintro _ ⟨⟩ -
      -- the record starts again with the new rebalance
      rw [Record.turn_other (Nat.ne_of_lt (Nat.lt_succ_self _))]
      apply restarted_bounded hnow
      intro id m hid
      exact (hvalid g rfl).rejoin_le id m (GroupState.keep_getElem?.mp hid).1
    | deserted phase time nobody => exact nofun
    | waiting changed phase laggard =>
      rintro _ ⟨⟩ -
      rw [Record.turn_same (by simp), GroupState.lasting_phaseDeadline]
      exact hg phase
    | completed name phase left joined room offered =>
      rintro _ ⟨⟩ hjoining
      cases hjoining
    -- without a generation number left the rebalance goes on as it is
    | exhausted phase left joined full =>
      rintro _ ⟨⟩ -
      rw [Record.turn_same (by simp), GroupState.lasting_phaseDeadline]
      exact hg phase

/-- Who is heard of does not matter for the rebalance. -/
theorem BoundedSlot.hear {o : Option String} (h : BoundedSlot clock record s) :
    BoundedSlot clock (record.hear clock o) s := by
  cases o with
  | none => exact h
  | some id => exact h

/-- The deadline of a rebalance that a member has joined in time. -/
theorem registered_bounded {request : JoinRequest} {id : String} {bound : Nat}
    (hown : now + fromMillis request.rebalanceTimeoutMs ≤ bound)
    (hothers : ∀ (k : String) m, g.members[k]? = some m → k ≠ id →
      now + m.rebalanceTimeout ≤ bound) :
    (request.registered now id g).phaseDeadline ≤ bound := by
  apply latestRejoin_le hown
  intro k m hk
  obtain ⟨-, rfl⟩ | ⟨hne, hk⟩ := JoinRequest.registered_getElem?.mp hk
  · exact hown
  · exact hothers k m hk hne

/-- A change of a section keeps the rebalance bounded unless it is a join that comes after the
start of the rebalance. -/
theorem BoundedSlot.changed {o : Option String} (h : BoundedSlot clock record s)
    (hvalid : ValidSlot s) (hchecked : stage.Checked) (hnow : now ≤ clock)
    (hearly : ∀ request g, stage = .enter request → s = some g → g.phase = .joining →
      request.fits (some g) = true → now ≤ record.started)
    (hchanged : Stage.Changed now assigned stage s o s') :
    BoundedSlot clock (record.turn clock s s') s' := by
  cases hchanged with
  | @founded request new =>
    -- the founding join starts the record, and its own timeout is within the bound
    rintro _ ⟨⟩ -
    rw [Record.turn_some]
    have hle : fromMillis request.rebalanceTimeoutMs ≤ longestRebalance := hchecked.rejoin_le
    show now + fromMillis request.rebalanceTimeoutMs ≤ clock + longestRebalance
    omega
  | @joined request g fits room =>
    rintro _ ⟨⟩ -
    have hown : fromMillis request.rebalanceTimeoutMs ≤ longestRebalance := hchecked.rejoin_le
    by_cases hphase : g.phase = .joining
    · -- the join moves the deadline of a rebalance that has been started before
      have hsame : g.rejoining now = g := if_pos hphase
      rw [hsame, Record.turn_same (by rfl)]
      have hstarted := hearly request g rfl rfl hphase (JoinRequest.fits_of_accepted fits room)
      apply registered_bounded
      · omega
      · intro id m hid _
        have hle : m.rebalanceTimeout ≤ longestRebalance := (hvalid g rfl).rejoin_le id m hid
        omega
    -- the join starts a rebalance, so that the record starts now
    · have hnew : g.rejoining now = g.restarted now (g.rebalanceId + 1) := if_neg hphase
      rw [hnew, Record.turn_other (Nat.ne_of_lt (Nat.lt_succ_self _))]
      apply registered_bounded
      · show _ ≤ clock + longestRebalance
        omega
      · intro id m hid _
        obtain ⟨m', hm', rfl⟩ := GroupState.restarted_getElem?.mp hid
        have hle : m'.rebalanceTimeout ≤ longestRebalance := (hvalid g rfl).rejoin_le id m' hm'
        show now + m'.rebalanceTimeout ≤ clock + longestRebalance
        omega
  | installed installed phase =>
    rintro _ ⟨⟩ hjoining
    cases hjoining
  | @touched stage g id other =>
    rintro _ ⟨⟩
    rw [Record.turn_same (by rfl)]
    exact h g rfl
  | deserted => exact nofun
  -- what remains of the group has the deadline it had
  | remained phase =>
    rintro _ ⟨⟩ -
    rw [Record.turn_same (by simp [GroupState.without])]
    simpa [GroupState.without] using h _ rfl phase
  | completed name phase =>
    rintro _ ⟨⟩ hjoining
    cases hjoining
  | @restarted id g member phase =>
    rintro _ ⟨⟩ -
    rw [Record.turn_other (Nat.ne_of_lt (Nat.lt_succ_self _))]
    apply restarted_bounded hnow
    intro k m hk
    exact (hvalid g rfl).rejoin_le k m (GroupState.without_getElem?.mp hk).2

/-- A join of a rebalance that was there before comes early, and one that was started by the same
section comes at its start. -/
theorem started_of_early {w : System store} {l : Ledger} {slot : Nat} {generated : Option String}
    {request : JoinRequest} {r : Except Halt Bool}
    (hearly : Early w l (.ran slot now assigned generated (.enter request)))
    (hs : (w.shared.slots slot).state = s) (hnow : now ≤ w.shared.clock)
    (hreached : reached now s = some (some g)) (hadvanced : AdvancedSlot now s r (some g))
    (hphase : g.phase = .joining)
    (hfits : request.fits (some g) = true) :
    now ≤ ((l slot).turn w.shared.clock s (some g)).started := by
  cases hadvanced with
  | @group k _ _ advanced =>
    -- a join that is accepted here would move the deadline, which `Early` excludes after the start
    have hmoves : k.phase = .joining → now ≤ (l slot).started := by
      intro hwaits
      refine hearly (slot, now) ?_
      simp [Event.moves, hs, hwaits, hreached, hphase, hfits]
    cases advanced with
    | idle phase live time => exact absurd hphase phase
    | restarted phase left why =>
      -- a rebalance that restarts now begins now
      rw [Record.turn_other (Nat.ne_of_lt (Nat.lt_succ_self _))]
      exact hnow
    | waiting changed phase laggard =>
      rw [Record.turn_same (by simp)]
      exact hmoves phase
    | completed name phase left joined room offered => cases hphase
    | exhausted phase left joined full =>
      rw [Record.turn_same (by simp)]
      exact hmoves phase

theorem bounded_slotInvariant : SlotInvariant store Early BoundedSlot where
  empty := fun clock record => nofun
  later := fun _ h => h
  ran := fun {w l slot now assigned generated stage} hearly hnow _ hchecked _ hvalid h => by
    obtain ⟨r, s₁, hexec, hadvanced, hout⟩ := Stage.run_changed now assigned stage hvalid hchecked
    have hbounded := h.advanced hvalid hnow hadvanced
    unfold Record.ran Record.swept
    simp only [hexec]
    apply BoundedSlot.hear
    rcases hout with ⟨hsame, -⟩ | ⟨hreached, hchanged⟩
    · simp only [hsame, Record.turn_self]
      exact hbounded
    · refine hbounded.changed (hadvanced.valid hvalid) hchecked hnow ?_ hchanged
      rintro request g rfl rfl hphase hfits
      exact started_of_early hearly rfl hnow hreached hadvanced hphase hfits
  swept := fun _ hnow hvalid h => h.advanced hvalid hnow (advanceGroup_slot _ hvalid)

/-- **Rebalances are bounded** when no join moves their deadline after their start. -/
theorem early_rebalancesBounded (store : OffsetStore) : RebalancesBounded store Early := by
  intro w l hrun slot g hg hphase
  exact hrun.slotInvariant bounded_slotInvariant slot g hg hphase

/-- Of four rebalances, the last one waits for the first member to rejoin. -/
theorem early_rebalancesBounded_lifetime : ∃ (w : System promptStore) (l : Ledger),
    Run promptStore Early w l ∧ ∃ g, (w.shared.slots 0).state = some g ∧
      (g.rebalanceId = 4 ∧ g.phase = .joining) ∧
      g.phaseDeadline ≤ (l 0).started + longestRebalance := by
  obtain ⟨w, l, hrun, hwaits⟩ := promptRun_exists Early (fun w l e => decide (Early w l e))
    (lifetime ++ looking) (fun w _ => (w.shared.slots 0).state.any fun g =>
      g.rebalanceId == 4 && g.phase == .joining)
    (fun _ _ _ => of_decide_eq_true) (by decide +kernel)
  obtain ⟨g, hg, hwaits⟩ := (Option.any_eq_true _ _).mp hwaits
  rw [Bool.and_eq_true, beq_iff_eq, beq_iff_eq] at hwaits
  exact ⟨w, l, hrun, g, hg, hwaits,
    early_rebalancesBounded promptStore w l hrun 0 g hg hwaits.2⟩

/-! ## A join that moves the deadline -/

/-- One member is in a generation when a second one joins, after one second: the first one has
to rejoin and does not. A third one joins after two hundred seconds, long before the rebalance
is over. -/
def movingJoin : List Turn :=
  [.call (.join "group" (consumer 300000 300000)), .move 0 "", .move 0 "", .move 0 "", .move 0 "",
    .move 0 "first", .tick 1000000000,
    .call (.join "group" (consumer 300000 300000)), .move 0 "", .move 0 "", .move 0 "",
    .move 0 "second", .tick 200000000000,
    .call (.join "group" (consumer 300000 300000)), .move 0 "", .move 0 "", .move 0 "",
    .move 0 "third"]

/-- The rebalance has another three hundred seconds then. -/
theorem movingJoin_unbounded : ¬ RebalancesBounded promptStore fun _ _ _ => True := by
  intro hbounded
  obtain ⟨w, l, hrun, hlate⟩ := promptRun_exists (fun _ _ _ => True) (fun _ _ _ => true) movingJoin
    (fun w l => (w.shared.slots 0).state.any fun g =>
      g.phase == .joining && (l 0).started + longestRebalance < g.phaseDeadline)
    (fun _ _ _ _ => trivial) (by decide +kernel)
  cases hg : (w.shared.slots 0).state with
  | none =>
    rw [hg] at hlate
    cases hlate
  | some g =>
    rw [hg, Option.any_some, Bool.and_eq_true, beq_iff_eq, decide_eq_true_eq] at hlate
    have := hbounded w l hrun 0 g hg hlate.1
    omega

end Walstream.Group

import Walstream.Group.Invariants
import Walstream.Group.Schedules

/-!
# What a refused request leaves behind

A join or a sync that is refused when it is applied to a group leaves what `advance_group`
leaves, and nothing else. And what a stable group has given to its members is not altered by
any step of the coordinator until a rebalance starts.
-/

namespace Walstream.Group

open Interaction Log
open Std (ExtTreeMap)

variable {store : OffsetStore} {g k : GroupState} {s s' : Option GroupState} {now : Nat}
  {assigned : String} {stage : Stage}

/-! ## Refusals -/

/-- A join is applied and a sync is submitted. -/
def Call.submits : Call → Bool
  | .join _ _ => true
  | .sync _ _ _ _ => true
  | _ => false

/-- The section ends with an error for the client. -/
def Refuses : Except Halt Next → Prop
  | .error (.error _) => True
  | .ok (.reply (.error _) _) => True
  | _ => False

/-- The part of a join or a sync after its `advance_group` changes the group only when it
accepts the request. -/
theorem Stage.Done.refused {call : Call} {r : Except Halt Next}
    (hdone : Done now assigned call.stage s r s') (hsubmits : call.submits = true)
    (hrefuses : Refuses r) : s' = s := by
  cases call with
  | join group request =>
    cases hdone with
    | enter entered =>
      cases entered with
      | founded new => exact hrefuses.elim
      | unknown old => rfl
      | rejected e why => rfl
      | full new why => rfl
      | accepted fits room => exact hrefuses.elim
  | sync group generationId memberId assignments =>
    -- a member that is told something is not refused
    have htold : ∀ {k : GroupState} {id : String} {round : SyncRound},
        Told k id round → ¬ Refuses (.ok (round.next generationId memberId assignments)) := by
      intro k id round told hrefuses
      cases told with
      | waiting phase => exact hrefuses
      | assigned m assignment phase member has => exact hrefuses
    cases hdone with
    | sync synced =>
      cases synced with
      | gone => rfl
      | rejected e => rfl
      | installed installed first active phase leader exact told =>
        exact absurd hrefuses (htold told)
      | heard first active phase told => exact absurd hrefuses (htold told)
      | looked again active phase told => cases again
  | heartbeat group generationId memberId => cases hsubmits
  | leave group memberId => cases hsubmits
  | commit group generationId memberId commits => cases hsubmits

/-- A refused join or sync leaves what `advance_group` leaves. -/
theorem refused_exec {call : Call} {r : Except Halt Next} (h : ValidSlot s)
    (hvalid : call.validate = .ok ()) (hsubmits : call.submits = true)
    (hexec : (call.stage.run now assigned).exec s = (r, s')) (hrefuses : Refuses r) :
    s' = ((advanceGroup now).exec s).2 := by
  have hadvanced := advanceGroup_slot now h
  unfold Stage.run at hexec
  rw [Section.exec_bind] at hexec
  cases hadvance : (advanceGroup now).exec s with
  | mk result s₁ =>
    rw [hadvance] at hexec hadvanced
    cases result with
    | error e =>
      cases hexec
      rfl
    | ok changed =>
      have hexec : (call.stage.body now assigned).exec s₁ = (r, s') := hexec
      have hdone : Stage.Done now assigned call.stage s₁ _ _ :=
        Stage.body_done (hadvanced.valid h) (Call.checked hvalid)
      rw [hexec] at hdone
      exact hdone.refused hsubmits hrefuses

/-! ## What a stable group has given to its members -/

/-- The groups are in the same generation, and stable, with the same assignments. -/
structure GroupState.SameDeal (g k : GroupState) : Prop where
  phase : k.phase = .stable
  generationId : k.generationId = g.generationId
  rebalanceId : k.rebalanceId = g.rebalanceId
  leaderId : k.leaderId = g.leaderId
  protocolName : k.protocolName = g.protocolName
  assignments : ∀ id : String,
    k.members[id]?.map (·.assignment) = g.members[id]?.map (·.assignment)

theorem GroupState.SameDeal.refl (h : g.phase = .stable) : g.SameDeal g :=
  ⟨h, rfl, rfl, rfl, rfl, fun _ => rfl⟩

theorem GroupState.SameDeal.trans {l : GroupState} (h : g.SameDeal k) (h' : k.SameDeal l) :
    g.SameDeal l where
  phase := h'.phase
  generationId := h'.generationId.trans h.generationId
  rebalanceId := h'.rebalanceId.trans h.rebalanceId
  leaderId := h'.leaderId.trans h.leaderId
  protocolName := h'.protocolName.trans h.protocolName
  assignments := fun id => (h'.assignments id).trans (h.assignments id)

/-- Hearing of a member gives nothing and takes nothing away. -/
theorem GroupState.SameDeal.touch {memberId : String} (h : g.phase = .stable) :
    g.SameDeal (g.touch now memberId) where
  phase := h
  generationId := rfl
  rebalanceId := rfl
  leaderId := rfl
  protocolName := rfl
  assignments := fun id => by
    rw [touch_mapped.members, ExtTreeMap.getElem?_map, Option.map_map]
    congr 1
    funext m
    show (if id = memberId then m.touched now else m).assignment = m.assignment
    split <;> rfl

/-- What becomes of a stable group in one step. -/
inductive Disposed (g : GroupState) : Option GroupState → Prop where
  /-- Its generation goes on. -/
  | kept {k : GroupState} (same : g.SameDeal k) : Disposed g (some k)
  /-- A rebalance has started. -/
  | rebalancing {k : GroupState} (phase : k.phase = .joining) : Disposed g (some k)
  /-- The group is gone. -/
  | gone : Disposed g none

/-- A rebalance that has just been started: nobody has rejoined. -/
structure GroupState.Fresh (g : GroupState) : Prop where
  phase : g.phase = .joining
  nobody : ∀ (id : String) m, g.members[id]? = some m → m.joinedRebalance ≠ g.rebalanceId

/-- What `advance_group` makes of a stable group. -/
theorem Advanced.stable {r : Except Halt Bool} (hadvanced : Advanced now g r s') (h : g.Valid)
    (hstable : g.phase = .stable) :
    s' = some g ∨ s' = none ∨ ∃ k, s' = some k ∧ k.Fresh := by
  have hphase : g.phase ≠ .joining := by rw [hstable]; nofun
  cases hadvanced with
  | idle phase live time => exact .inl rfl
  | vanished dead => exact .inr (.inl rfl)
  | restarted phase left why =>
    refine .inr (.inr ⟨_, rfl, rfl, fun id m hid heq => ?_⟩)
    -- the members that are kept have joined earlier rebalances
    obtain ⟨m', hm', rfl⟩ := GroupState.restarted_getElem?.mp hid
    have hle := h.joined_le id m' (GroupState.keep_getElem?.mp hm').1
    have heq' : m'.joinedRebalance = g.rebalanceId + 1 := heq
    omega
  | deserted phase time nobody => exact absurd phase hphase
  | waiting changed phase laggard => exact absurd phase hphase
  | completed name phase left joined room offered => exact absurd phase hphase
  | exhausted phase left joined full => exact absurd phase hphase

/-- What an operation makes of a stable group. -/
theorem Stage.Done.stable {r : Except Halt Next} (hdone : Done now assigned stage (some g) r s')
    (hstable : g.phase = .stable) : Disposed g s' := by
  -- a stable group is in no rebalance, which excludes two ways of leaving
  have hphase : g.phase ≠ .joining := by rw [hstable]; nofun
  have hsame : Disposed g (some g) := .kept (.refl hstable)
  have htouch : ∀ id, Disposed g (some (g.touch now id)) := fun id => .kept (.touch hstable)
  cases hdone with
  | enter entered =>
    cases entered with
    | rejected e why => exact hsame
    | full new why => exact hsame
    -- only an accepted join starts a rebalance
    | accepted fits room => exact .rebalancing GroupState.rejoining_phase
  | settle => exact hsame
  | await awaited => exact hsame
  | sync synced =>
    cases synced with
    | rejected e => exact hsame
    -- the assignments of a stable group are installed already
    | installed installed first active phase leader exact told =>
      rw [hstable] at phase
      cases phase
    | heard first active phase told => exact htouch _
    | looked again active phase told => exact hsame
  | heartbeat beaten =>
    cases beaten with
    | rejected e why => exact hsame
    | heard active => exact htouch _
  | leave left =>
    cases left with
    | stranger absent => exact hsame
    | last member nobody => exact .gone
    -- to wait or to complete takes a rebalance
    | waiting member phase laggard => exact absurd phase hphase
    | completed name member phase left joined room offered => exact absurd phase hphase
    | exhausted member phase left joined full => exact absurd phase hphase
    | restarted member phase left => exact .rebalancing rfl
  | commit committing => exact hsame

/-- A rebalance that has just been started is not completed by one operation. -/
theorem Stage.Done.fresh {r : Except Halt Next} (hdone : Done now assigned stage (some k) r s')
    (h : k.Fresh) : Disposed g s' := by
  have hsame : Disposed g (some k) := .rebalancing h.phase
  have htouch : ∀ id, Disposed g (some (k.touch now id)) := fun id => .rebalancing h.phase
  have hwithout : ∀ id, Disposed g (some (k.without id)) := fun id =>
    .rebalancing (by simpa [GroupState.without] using h.phase)
  cases hdone with
  | enter entered =>
    cases entered with
    | rejected e why => exact hsame
    | full new why => exact hsame
    | accepted fits room => exact .rebalancing GroupState.rejoining_phase
  | settle => exact hsame
  | await awaited => exact hsame
  | sync synced =>
    cases synced with
    | rejected e => exact hsame
    | installed installed first active phase leader exact told =>
      rw [h.phase] at phase
      cases phase
    | heard first active phase told => exact htouch _
    | looked again active phase told => exact hsame
  | heartbeat beaten =>
    cases beaten with
    | rejected e why => exact hsame
    | heard active => exact htouch _
  | leave left =>
    cases left with
    | stranger absent => exact hsame
    | last member nobody => exact .gone
    | waiting member phase laggard => exact hwithout _
    -- the completion needs members that have rejoined, and after a start nobody has
    | completed name member phase left joined room offered =>
      obtain ⟨id, m, hid⟩ := left
      exact absurd (joined id m hid) (h.nobody id m (GroupState.without_getElem?.mp hid).2)
    | exhausted member phase left joined full => exact hwithout _
    -- a restart needs a group that is not in a rebalance
    | restarted member phase left => exact absurd h.phase phase
  | commit committing => exact hsame

/-- An operation on a slot without a group founds one at most. -/
theorem Stage.Done.none {r : Except Halt Next} (hdone : Done now assigned stage none r s') :
    Disposed g s' := by
  cases hdone with
  | enter entered =>
    cases entered with
    | founded new => exact .rebalancing rfl
    | unknown old => exact .gone
  | settle => exact .gone
  | await awaited => exact .gone
  | sync synced =>
    cases synced with
    | gone => exact .gone
  | heartbeat beaten =>
    cases beaten with
    | rejected e why => exact .gone
  | leave left =>
    cases left with
    | gone => exact .gone
  | commit committing => exact .gone

theorem AdvancedSlot.disposed {r : Except Halt Bool} (hadvanced : AdvancedSlot now (some g) r s')
    (h : g.Valid) (hstable : g.phase = .stable) : Disposed g s' := by
  cases hadvanced with
  | group advanced =>
    obtain rfl | rfl | ⟨k, rfl, hfresh⟩ := advanced.stable h hstable
    · exact .kept (.refl hstable)
    · exact .gone
    · exact .rebalancing hfresh.phase

/-- What a section makes of a stable group. -/
theorem Stage.Ran.disposed {r : Except Halt Next} (hran : Ran now assigned stage (some g) r s')
    (h : g.Valid) (hstable : g.phase = .stable) : Disposed g s' := by
  cases hran with
  | stopped e advanced => exact advanced.disposed h hstable
  | done changed advanced done =>
    cases advanced with
    | group advanced =>
      obtain rfl | rfl | ⟨k, rfl, hfresh⟩ := advanced.stable h hstable
      · exact done.stable hstable
      · exact done.none
      · exact done.fresh hfresh

/-! ## Runs -/

/-- A step from a reachable state leads to a reachable state. -/
theorem Reachable.step {w w' : System store} {e : Event} (h : Reachable w)
    (hstep : Step store w e w') : Reachable w' := by
  obtain ⟨l, hrun⟩ := h
  exact ⟨_, hrun.step trivial hstep⟩

/-- One step of the coordinator. -/
theorem Step.disposed {w w' : System store} {e : Event} {slot : Nat} (h : Reachable w)
    (hstep : Step store w e w') (hg : (w.shared.slots slot).state = some g)
    (hstable : g.phase = .stable) : Disposed g (w'.shared.slots slot).state := by
  obtain ⟨l, hrun⟩ := h
  obtain ⟨hvalid, hsane⟩ := hrun.validGroups
  -- most steps leave the slot with the group that it has
  have hsame : Disposed g (w.shared.slots slot).state := by
    rw [hg]
    exact .kept (.refl hstable)
  cases hstep with
  | tick clock later => exact hsame
  | call call => exact hsame
  | @move w w' _ t t' before after moves =>
    have hmem : t ∈ before ++ t :: after := by simp
    show Disposed g (w'.slots slot).state
    have hgvalid := hvalid.valid slot g hg
    -- a step without a section leaves the slot alone or empties it
    cases e with
    | quiet =>
      rcases moves.quiet_state slot with heq | hnone
      · rw [heq]
        exact hsame
      · rw [hnone]
        exact .gone
    -- a section changes its own slot only
    | ran slot' now assigned generated stage =>
      obtain ⟨-, -, hchecked, -⟩ := moves.ran_spec hvalid (hsane t hmem) (hrun.past t hmem)
      rw [moves.ran_state slot]
      split
      · rename_i hslot
        subst hslot
        have hran := Stage.run_ran now assigned stage (hvalid.valid slot) hchecked
        have hg' : (w.slots slot).state = some g := hg
        rw [hg'] at hran ⊢
        exact hran.disposed hgvalid hstable
      · exact hsame
    -- so does a sweep
    | swept slot' now =>
      rw [moves.swept_state slot]
      split
      · rename_i hslot
        subst hslot
        have hadvanced := advanceGroup_slot now (hvalid.valid slot)
        have hg' : (w.slots slot).state = some g := hg
        rw [hg'] at hadvanced ⊢
        exact hadvanced.disposed hgvalid hstable
      · exact hsame

/-- A step after which the slot has a group that is not in a rebalance. -/
def Settled (slot : Nat) (w w' : System store) : Prop :=
  (∃ e, Step store w e w') ∧ ∃ k, (w'.shared.slots slot).state = some k ∧ k.phase ≠ .joining

/-- Until a rebalance starts, the generation and its assignments stay. -/
theorem Settled.sameDeal {w w' : System store} {slot : Nat} (h : Reachable w)
    (hg : (w.shared.slots slot).state = some g) (hstable : g.phase = .stable)
    (hsteps : Relation.ReflTransGen (Settled slot) w w') :
    Reachable w' ∧ ∃ k, (w'.shared.slots slot).state = some k ∧ g.SameDeal k := by
  induction hsteps with
  | refl => exact ⟨h, g, hg, .refl hstable⟩
  | tail _ hstep ih =>
    obtain ⟨hreachable, k, hk, hsame⟩ := ih
    obtain ⟨⟨e, hstep⟩, l, hl, hphase⟩ := hstep
    refine ⟨hreachable.step hstep, l, hl, ?_⟩
    have hdisposed := hstep.disposed hreachable hk hsame.phase
    rw [hl] at hdisposed
    cases hdisposed with
    | kept same => exact hsame.trans same
    | rebalancing phase => exact absurd phase hphase

/-- What refused requests and other operations leave of the groups. -/
structure System.RefusalsHarmless (w : System store) : Prop where
  /-- A join or a sync that is refused leaves what `advance_group` leaves. -/
  refused : ∀ slot now assigned (call : Call) r s', call.submits = true →
    call.validate = .ok () →
    (call.stage.run now assigned).exec (w.shared.slots slot).state = (r, s') → Refuses r →
    s' = ((advanceGroup now).exec (w.shared.slots slot).state).2
  /-- A step keeps the generation of a stable group and its assignments, unless it starts a
  rebalance or ends the group. -/
  disposed : ∀ slot g e w', (w.shared.slots slot).state = some g → g.phase = .stable →
    Step store w e w' → Disposed g (w'.shared.slots slot).state
  /-- So do any number of steps. -/
  kept : ∀ slot g w', (w.shared.slots slot).state = some g → g.phase = .stable →
    Relation.ReflTransGen (Settled slot) w w' →
    ∃ k, (w'.shared.slots slot).state = some k ∧ g.SameDeal k

/-- **Refused requests do not disturb a group**, in every state that the coordinator can
reach. -/
theorem reachable_refusalsHarmless (store : OffsetStore) (w : System store) (h : Reachable w) :
    w.RefusalsHarmless where
  refused := fun slot now assigned call r s' hsubmits hvalid hexec hrefuses => by
    obtain ⟨l, hrun⟩ := h
    exact refused_exec (hrun.validGroups.1.valid slot) hvalid hsubmits hexec hrefuses
  disposed := fun slot g e w' hg hstable hstep => hstep.disposed h hg hstable
  kept := fun slot g w' hg hstable hsteps => (Settled.sameDeal h hg hstable hsteps).2

/-- The group of this slot is stable. -/
def System.stable (w : System promptStore) (slot : Nat) : Bool :=
  (w.shared.slots slot).state.any fun g => g.phase == .stable

/-- With a stable group, say. -/
theorem reachable_refusalsHarmless_stable : ∃ w : System promptStore, Reachable w ∧
    w.stable 0 = true ∧ w.RefusalsHarmless := by
  obtain ⟨w, hreachable, hstable⟩ := promptRun_reachable committing
    (fun w => w.stable 0) (by decide +kernel)
  exact ⟨w, hreachable, hstable, reachable_refusalsHarmless promptStore w hreachable⟩

end Walstream.Group

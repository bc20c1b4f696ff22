import Walstream.Group.Eras

/-!
# Generations agree

Runs of the coordinator with the annals of their slots (`Account`). Whatever operations there are,
in whatever order they move, all answers of an era fit together, and every operation that has
joined or synced was told what the annals say.
-/

namespace Walstream.Group

open Interaction Log
open Std (ExtTreeMap)

variable {store : OffsetStore} {now : Nat} {assigned : String} {stage : Stage}
  {s s' : Option GroupState} {r : Except Halt Next}

/-! ## Annals grow -/

/-- Everything that is in the annals stays there. -/
def Annals.Grows (annals annals' : Annals) : Prop :=
  ∀ era ∈ annals, ∃ era' ∈ annals', era.joins ⊆ era'.joins ∧ era.syncs ⊆ era'.syncs

namespace Annals

variable {annals annals' annals'' : Annals}

theorem Grows.refl (annals : Annals) : annals.Grows annals :=
  fun era hera => ⟨era, hera, List.Subset.refl _, List.Subset.refl _⟩

theorem Grows.trans (h : annals.Grows annals') (h' : annals'.Grows annals'') :
    annals.Grows annals'' := by
  intro era hera
  obtain ⟨era', hera', hjoins, hsyncs⟩ := h era hera
  obtain ⟨era'', hera'', hjoins', hsyncs'⟩ := h' era' hera'
  exact ⟨era'', hera'', List.Subset.trans hjoins hjoins',
    List.Subset.trans hsyncs hsyncs'⟩

theorem grows_modifyHead {f : Era → Era}
    (h : ∀ era, era.joins ⊆ (f era).joins ∧ era.syncs ⊆ (f era).syncs) :
    annals.Grows (annals.modifyHead f) := by
  cases annals with
  | nil => exact .refl []
  | cons head rest =>
    intro era hera
    rcases List.mem_cons.mp hera with rfl | hera
    · exact ⟨f era, List.mem_cons_self, h era⟩
    · exact ⟨era, List.mem_cons_of_mem _ hera, List.Subset.refl _, List.Subset.refl _⟩

theorem grows_turn {taken : GroupState → GroupState → Option Submission} :
    annals.Grows (annals.turn taken s s') := by
  cases s' with
  | none => cases s <;> exact .refl annals
  | some k =>
    cases s with
    | none =>
      exact fun era hera =>
        ⟨era, List.mem_cons_of_mem _ hera, List.Subset.refl _, List.Subset.refl _⟩
    | some g =>
      apply grows_modifyHead
      intro era
      unfold Era.pass Era.submit
      split <;> split <;> exact ⟨List.Subset.refl _, List.Subset.refl _⟩

theorem grows_answer : annals.Grows (annals.answer stage r) := by
  apply grows_modifyHead
  intro era
  unfold Era.answer
  split
  · exact ⟨List.subset_cons_self _ _, List.Subset.refl _⟩
  · exact ⟨List.Subset.refl _, List.subset_cons_self _ _⟩
  · exact ⟨List.Subset.refl _, List.Subset.refl _⟩

theorem grows_swept : annals.Grows (annals.swept now s) := grows_turn

theorem grows_ran : annals.Grows (annals.ran now assigned stage s) :=
  (grows_swept.trans grows_turn).trans grows_answer

end Annals

/-! ## Answers are put on record -/

/-- Only a join that waits is told an outcome. -/
theorem Stage.Done.joined {outcome : JoinOutcome} {reclaim : Bool}
    (h : Done now assigned stage s (.ok (.reply (.ok (.joined outcome)) reclaim)) s') :
    (∃ id target, stage = .await id target) ∧ ∃ k, s' = some k := by
  generalize hr : (Except.ok (Next.reply (.ok (.joined outcome)) reclaim) : Except Halt Next) = r at h
  cases h with
  | enter entered => cases entered <;> cases hr
  | settle => cases hr
  | await awaited =>
    cases awaited <;> cases hr
    -- the only section left is the one that waits for the rebalance
    exact ⟨⟨_, _, rfl⟩, _, rfl⟩
  | sync synced =>
    cases synced with
    | gone => cases hr
    | rejected e => cases hr
    | installed installed first active phase leader exact told => cases told <;> cases hr
    | heard first active phase told => cases told <;> cases hr
    | looked again active phase told => cases told <;> cases hr
  | heartbeat beaten =>
    cases beaten with
    | rejected e why => cases hr
    | heard active => split at hr <;> cases hr
  | leave left => cases left <;> cases hr
  | commit committing => cases committing <;> cases hr

/-- Only a sync is told an assignment. -/
theorem Stage.Done.synced {assignment : List UInt8} {reclaim : Bool}
    (h : Done now assigned stage s (.ok (.reply (.ok (.synced assignment)) reclaim)) s') :
    (∃ number id assignments submitted, stage = .sync number id assignments submitted) ∧
      ∃ k, s' = some k := by
  generalize hr : (Except.ok (Next.reply (.ok (.synced assignment)) reclaim) : Except Halt Next) = r
    at h
  cases h with
  | enter entered => cases entered <;> cases hr
  | settle => cases hr
  | await awaited => cases awaited <;> cases hr
  | sync synced =>
    refine ⟨⟨_, _, _, _, rfl⟩, ?_⟩
    cases synced with
    | gone => cases hr
    | rejected e => cases hr
    -- all three sections that tell an assignment keep the group
    | installed installed first active phase leader exact told => exact ⟨_, rfl⟩
    | heard first active phase told => exact ⟨_, rfl⟩
    | looked again active phase told => exact ⟨_, rfl⟩
  | heartbeat beaten =>
    cases beaten with
    | rejected e why => cases hr
    | heard active => split at hr <;> cases hr
  | leave left => cases left <;> cases hr
  | commit committing => cases committing <;> cases hr

/-- What a section of a live group answers is recorded in the last era. -/
theorem Annals.Tell.recorded {annals : Annals} (h : annals.Tell s) (hvalid : ValidSlot s)
    (hchecked : stage.Checked) (hassigned : assigned ≠ "") {reply : Reply} {reclaim : Bool}
    (hreply : ((stage.run now assigned).exec s).1 = .ok (.reply (.ok reply) reclaim)) :
    ∃ s₁, Stage.Done now assigned stage s₁ ((stage.run now assigned).exec s).1
        ((stage.run now assigned).exec s).2 ∧
      ((∃ k, ((stage.run now assigned).exec s).2 = some k) → ∃ era : Era,
        era.answer stage (.ok (.reply (.ok reply) reclaim)) ∈
          annals.ran now assigned stage s) := by
  have hswept : (annals.swept now s).Tell ((advanceGroup now).exec s).2 := h.swept hvalid
  have hadvanced := advanceGroup_slot now hvalid
  unfold Annals.ran
  unfold Stage.run at hreply ⊢
  rw [Section.exec_bind] at hreply ⊢
  cases hexec : (advanceGroup now).exec s with
  | mk r s₁ =>
    -- the section begins with `advance_group`, which may stop it
    rw [hexec] at hadvanced hswept hreply
    cases r with
    | error e => cases hreply
    | ok changed =>
      have hdone : Stage.Done now assigned stage s₁ ((stage.body now assigned).exec s₁).1
          ((stage.body now assigned).exec s₁).2 :=
        Stage.body_done (hadvanced.valid hvalid) hchecked
      refine ⟨s₁, hdone, fun ⟨k, hk⟩ => ?_⟩
      -- the slot has a group, and the first era is its own
      obtain ⟨era, rest, heq, -⟩ := (hswept.turn_done hdone
        (hdone.valid (hadvanced.valid hvalid) hchecked hassigned)).reflects k hk
      refine ⟨era, ?_⟩
      rw [← hreply]
      show _ ∈ ((annals.swept now s).turn stage.submission s₁ _).answer stage _
      rw [heq]
      exact List.mem_cons_self

/-! ## Operations -/

/-- The member that an operation is for, with the id that it has generated. -/
def Call.member (call : Call) (generated : Option String) : Option String :=
  match call with
  | join _ request => if request.memberId = "" then generated else some request.memberId
  | sync _ _ memberId _ | heartbeat _ _ memberId | leave _ memberId | commit _ _ memberId _ =>
    some memberId

/-- The reply to an operation is in an era. -/
inductive Call.RecordedIn (era : Era) (generated : Option String) : Call → Reply → Prop where
  | joined {group : String} {request : JoinRequest} {id : String} {outcome : JoinOutcome}
      (caller : (Call.join group request).member generated = some id)
      (record : (id, outcome) ∈ era.joins) :
      RecordedIn era generated (.join group request) (.joined outcome)
  | synced {group : String} {number : Int} {id : String} {assignments : List SyncAssignment}
      {assignment : List UInt8} (record : (number, ⟨id, assignment⟩) ∈ era.syncs) :
      RecordedIn era generated (.sync group number id assignments) (.synced assignment)

/-- A section that works for the operation. -/
def Call.Works (call : Call) (generated : Option String) : Stage → Prop
  | .enter request => ∃ group, call = .join group request
  | .settle id _ | .await id _ =>
    (∃ group request, call = .join group request) ∧ call.member generated = some id
  | .sync number id assignments _ => ∃ group, call = .sync group number id assignments
  | _ => True

theorem Call.works_stage (call : Call) (generated : Option String) :
    call.Works generated call.stage := by
  cases call with
  | join group request => exact ⟨group, rfl⟩
  | sync group number id assignments => exact ⟨group, rfl⟩
  | _ => trivial

/-- The reply is in the annals of a slot of the group. -/
def Task.Reported (t : Task store.Work) (w : Shared store.Content) (annals : Nat → Annals)
    (outcome : Outcome) : Prop :=
  ∀ reply, outcome = .ok reply → reply ≠ .done → ∃ slot, slot < w.fresh ∧
    (w.slots slot).group = t.call.group ∧
      ∃ era ∈ annals slot, t.call.RecordedIn era t.generated reply

/-- An operation works for its call, and its reply is on record. -/
def Task.OnRecord (t : Task store.Work) (w : Shared store.Content) (annals : Nat → Annals) : Prop :=
  match t.point with
  | .locking _ _ stage | .running _ _ stage => t.call.Works t.generated stage
  | .reclaiming _ outcome | .dropping _ outcome | .returned outcome => t.Reported w annals outcome
  | _ => True

/-- A section goes on with one that works for the same operation. -/
theorem Stage.Done.works {call : Call} {generated : Option String} {stage' : Stage}
    (hdone : Done now assigned stage s (.ok (.section stage')) s')
    (h : call.Works generated stage) :
    call.Works (if stage.generates then some assigned else generated) stage' := by
  -- only a join or a sync goes on with another section
  generalize hr : (Except.ok (Next.section stage') : Except Halt Next) = r at hdone
  cases hdone with
  | @enter request _ _ _ entered =>
    obtain ⟨group, rfl⟩ := h
    have hmember : (Call.join group request).member
        (if (Stage.enter request).generates then some assigned else generated) =
          some (request.idFor assigned) := by
      by_cases hnew : request.memberId = "" <;>
        simp [Call.member, Stage.generates, JoinRequest.idFor, hnew]
    cases entered with
    | founded new =>
      cases hr
      exact ⟨⟨group, request, rfl⟩, by rw [hmember, JoinRequest.idFor, if_pos new]⟩
    | unknown old => cases hr
    | rejected e why => cases hr
    | full new why => cases hr
    | accepted fits room =>
      cases hr
      exact ⟨⟨group, request, rfl⟩, hmember⟩
  | settle =>
    cases hr
    exact h
  | await awaited =>
    cases awaited with
    | waiting m same member result =>
      cases hr
      exact h
    | _ => cases hr
  | sync synced =>
    -- a sync repeats its round with the same arguments
    have hround : ∀ {g : GroupState} {id : String} {round : SyncRound} {k : Int}
        {assignments : List SyncAssignment}, Told g id round →
        (∃ group, call = .sync group k id assignments) →
        Next.section stage' = round.next k id assignments →
        call.Works generated stage' := by
      intro g id round k assignments htold hcall heq
      cases htold <;> cases heq
      exact hcall
    cases synced with
    | gone => cases hr
    | rejected e => cases hr
    | installed installed first active phase leader exact told =>
      exact hround told h (Except.ok.inj hr)
    | heard first active phase told => exact hround told h (Except.ok.inj hr)
    | looked again active phase told => exact hround told h (Except.ok.inj hr)
  | heartbeat beaten => cases beaten <;> cases hr
  | leave left => cases left <;> cases hr
  | commit committing => cases committing <;> cases hr

/-- A reply to an operation is recorded. -/
theorem Annals.Tell.replied {annals : Annals} (h : annals.Tell s) (hvalid : ValidSlot s)
    (hchecked : stage.Checked) (hassigned : assigned ≠ "") {reply : Reply} {reclaim : Bool}
    (hreply : ((stage.run now assigned).exec s).1 = .ok (.reply (.ok reply) reclaim))
    (hdone : reply ≠ .done) {call : Call} {generated : Option String}
    (hworks : call.Works generated stage) :
    stage.generates = false ∧
      ∃ era ∈ annals.ran now assigned stage s, call.RecordedIn era generated reply := by
  obtain ⟨s₁, hran, hera⟩ := h.recorded hvalid hchecked hassigned hreply
  rw [hreply] at hran
  cases reply with
  | done => exact absurd rfl hdone
  | joined outcome =>
    -- the era that `recorded` gives holds this outcome first
    obtain ⟨⟨id, target, rfl⟩, hk⟩ := hran.joined
    obtain ⟨era, hmem⟩ := hera hk
    obtain ⟨⟨group, request, rfl⟩, hmember⟩ := hworks
    exact ⟨rfl, _, hmem, .joined hmember List.mem_cons_self⟩
  | synced assignment =>
    obtain ⟨⟨number, id, assignments, submitted, rfl⟩, hk⟩ := hran.synced
    obtain ⟨era, hmem⟩ := hera hk
    obtain ⟨group, rfl⟩ := hworks
    exact ⟨rfl, _, hmem, .synced List.mem_cons_self⟩

/-! ## Runs -/

/-- The annals of the slots after a step from `w`. -/
def Annals.next {Content : Type} (annals : Nat → Annals) (w : Shared Content) :
    Event → Nat → Annals
  | .quiet => annals
  | .ran slot now assigned _ stage =>
    Function.update annals slot ((annals slot).ran now assigned stage (w.slots slot).state)
  | .swept slot now => Function.update annals slot ((annals slot).swept now (w.slots slot).state)

/-- The runs from an empty coordinator, with the annals of its slots. -/
inductive Account (store : OffsetStore) : System store → (Nat → Annals) → Prop where
  | init (clock : Nat) (content : store.Content) :
      Account store (System.init clock content) fun _ => []
  | step {w w' : System store} {annals : Nat → Annals} {e : Event}
      (account : Account store w annals) (step : Step store w e w') :
      Account store w' (Annals.next annals w.shared e)

theorem Account.reachable {w : System store} {annals : Nat → Annals} (h : Account store w annals) :
    Reachable w := by
  induction h with
  | init clock content => exact ⟨fun _ => ⟨fun _ => 0, 0⟩, .init clock content _⟩
  | step account step ih =>
    obtain ⟨l, hrun⟩ := ih
    exact ⟨_, .step hrun trivial step⟩

/-- Every run has annals. -/
theorem Reachable.account {w : System store} (h : Reachable w) : ∃ annals, Account store w annals := by
  obtain ⟨l, hrun⟩ := h
  induction hrun with
  | init clock content l => exact ⟨_, .init clock content⟩
  | step run meets step ih =>
    obtain ⟨annals, haccount⟩ := ih
    exact ⟨_, .step haccount step⟩

theorem Annals.grows_update {annals : Nat → Annals} {slot' : Nat} {last : Annals}
    (h : (annals slot').Grows last) (slot : Nat) :
    (annals slot).Grows (Function.update annals slot' last slot) := by
  rw [Function.update_apply]
  split
  · rename_i heq
    rw [heq]
    exact h
  · exact .refl _

theorem Annals.grows_next {Content : Type} {annals : Nat → Annals} {w : Shared Content} {e : Event}
    (slot : Nat) : (annals slot).Grows (Annals.next annals w e slot) := by
  cases e with
  | quiet => exact .refl _
  | ran slot' now assigned generated stage => exact grows_update grows_ran slot
  | swept slot' now => exact grows_update grows_swept slot

section Steps

variable {w w' : Shared store.Content} {t t' : Task store.Work} {annals annals' : Nat → Annals}

/-- A slot keeps its name. -/
theorem Moves.group_eq {e : Event} (h : Moves store w t e w' t') {slot : Nat}
    (hlt : slot < w.fresh) : slot < w'.fresh ∧ (w'.slots slot).group = (w.slots slot).group := by
  have hupdate : ∀ (slot' : Nat) (x : Slot), x.group = (w.slots slot').group →
      ((w.withSlot slot' x).slots slot).group = (w.slots slot).group := by
    intro slot' x hx
    rw [Shared.withSlot_slots]
    split
    · rename_i heq
      rw [heq, hx]
    · rfl
  cases h with
  -- a new slot stands behind all others
  | create now here room =>
    refine ⟨Nat.lt_succ_of_lt hlt, ?_⟩
    show ((w.withSlot w.fresh _).slots slot).group = _
    rw [Shared.withSlot_slots, if_neg hlt.ne]
  | discard now slot' name left changed here there unused unlocked exec =>
    refine ⟨hlt, ?_⟩
    show (((w.withSlot slot' _).withSlot slot' _).slots slot).group = _
    rw [Shared.withSlot_slots]
    split
    · rename_i heq
      rw [heq, Shared.withSlot_slots, if_pos rfl]
    · exact hupdate slot' _ rfl
  | find slot' here valid free there => exact ⟨hlt, hupdate slot' _ rfl⟩
  | keep now slot' name left r state here there unused unlocked exec stays =>
    exact ⟨hlt, hupdate slot' _ rfl⟩
  | crash now slot' name text left state here there unused unlocked exec =>
    exact ⟨hlt, hupdate slot' _ rfl⟩
  | lock slot' reading stage here unlocked => exact ⟨hlt, hupdate slot' _ rfl⟩
  | run slot' reading stage assigned r state here new exec => exact ⟨hlt, hupdate slot' _ rfl⟩
  | stored slot' work content result here step => exact ⟨hlt, hupdate slot' _ rfl⟩
  | reclaim slot' outcome here free same idle => exact ⟨hlt, hupdate slot' _ rfl⟩
  | drop slot' outcome here => exact ⟨hlt, hupdate slot' _ rfl⟩
  -- these steps leave the slots alone
  | refuse | absent | sweep | skip | full | read | work | leaveSlot => exact ⟨hlt, rfl⟩

theorem Call.RecordedIn.mono {era era' : Era} {generated : Option String} {call : Call}
    {reply : Reply} (h : call.RecordedIn era generated reply) (hjoins : era.joins ⊆ era'.joins)
    (hsyncs : era.syncs ⊆ era'.syncs) : call.RecordedIn era' generated reply := by
  cases h with
  | joined caller record => exact .joined caller (hjoins record)
  | synced record => exact .synced (hsyncs record)

/-- What is on record stays there. -/
theorem Task.Reported.later {outcome : Outcome} (h : t.Reported w annals outcome)
    (hslots : ∀ slot, slot < w.fresh →
      slot < w'.fresh ∧ (w'.slots slot).group = (w.slots slot).group)
    (hgrows : ∀ slot, (annals slot).Grows (annals' slot)) : t.Reported w' annals' outcome := by
  intro reply hreply hdone
  obtain ⟨slot, hlt, hgroup, era, hera, hrecorded⟩ := h reply hreply hdone
  obtain ⟨hlt', hsame⟩ := hslots slot hlt
  obtain ⟨era', hera', hjoins, hsyncs⟩ := hgrows slot era hera
  exact ⟨slot, hlt', hsame.trans hgroup, era', hera', hrecorded.mono hjoins hsyncs⟩

theorem Task.OnRecord.later (h : t.OnRecord w annals)
    (hslots : ∀ slot, slot < w.fresh →
      slot < w'.fresh ∧ (w'.slots slot).group = (w.slots slot).group)
    (hgrows : ∀ slot, (annals slot).Grows (annals' slot)) : t.OnRecord w' annals' := by
  unfold OnRecord at h ⊢
  split at h
  · exact h
  · exact h
  · exact h.later hslots hgrows
  · exact h.later hslots hgrows
  · exact h.later hslots hgrows
  · trivial

/-- A section works on, or puts its reply on record. -/
theorem Task.OnRecord.run {slot : Nat} {state : Option GroupState}
    (h : t.call.Works t.generated stage)
    (hslot : slot < w.fresh ∧ (w.slots slot).group = t.call.group)
    (htell : (annals slot).Tell (w.slots slot).state) (hvalid : ValidSlot (w.slots slot).state)
    (hchecked : stage.Checked) (hassigned : assigned ≠ "")
    (hexec : (stage.run now assigned).exec (w.slots slot).state = (r, state)) :
    Task.OnRecord
      { t with
        generated := if stage.generates then some assigned else t.generated
        point := store.resume t.call.group slot r }
      (w.settled slot state (holdsLock r) assigned)
      (Annals.next annals w (.ran slot now assigned t.generated stage)) := by
  have hran := Stage.run_ran now assigned stage hvalid hchecked
  rw [hexec] at hran
  cases hr : r with
  | error halt => exact nofun
  | ok next =>
    rw [hr] at hran
    cases next with
    -- the operation works on
    | «section» stage' =>
      cases hran with
      | done changed advanced done => exact done.works h
    | store commits => trivial
    -- the operation replies, and its era has the answer
    | reply result reclaim =>
      have hreported : Task.Reported
          { t with
            generated := if stage.generates then some assigned else t.generated
            point := store.resume t.call.group slot (.ok (.reply result reclaim)) }
          (w.settled slot state false assigned)
          (Annals.next annals w (.ran slot now assigned t.generated stage))
          (result.mapError .error) := by
        intro reply hreply hdone
        cases result with
        | error e => cases hreply
        | ok reply' =>
          cases hreply
          obtain ⟨hold, era, hera, hrecorded⟩ :=
            htell.replied hvalid hchecked hassigned (by rw [hexec, hr]) hdone h
          -- the slot is that of the group, and the era is among its annals
          refine ⟨slot, hslot.1, ?_, era, ?_, ?_⟩
          · show ((w.withSlot slot _).slots slot).group = t.call.group
            rw [Shared.withSlot_slots, if_pos rfl]
            exact hslot.2
          · show era ∈ Function.update annals slot _ slot
            rwa [Function.update_self]
          · rwa [hold]
      cases reclaim
      · exact hreported
      · exact hreported

/-- A step of an operation keeps its reply on record. -/
theorem Task.OnRecord.moves {e : Event} (h : t.OnRecord w annals) (hmoves : Moves store w t e w' t')
    (hslots : ∀ slot, t.point.used = some slot →
      slot < w.fresh ∧ (w.slots slot).group = t.call.group)
    (hvalid : ValidGroups w) (hsane : t.Sane) (hpast : t.Past w.clock)
    (htell : ∀ slot, (annals slot).Tell (w.slots slot).state) :
    t'.OnRecord w' (Annals.next annals w e) := by
  -- what was on record stays so
  have hlater : t.OnRecord w' (Annals.next annals w e) :=
    h.later (fun slot => hmoves.group_eq) Annals.grows_next
  have hspec := hmoves
  cases hmoves with
  | refuse e here why => exact nofun
  | find slot here valid free there =>
    obtain ⟨call, generated, point⟩ := t
    cases call with
    | join group request => trivial
    | sync group number id assignments => exact ⟨group, rfl⟩
    | heartbeat group number id => trivial
    | leave group id => trivial
    | commit group number id commits => trivial
  | absent here valid free absent old => exact nofun
  | sweep left here valid free absent first all => trivial
  | skip now slot name left here there used => trivial
  | keep now slot name left r state here there unused unlocked exec stays => trivial
  | discard now slot name left changed here there unused unlocked exec => trivial
  | crash now slot name text left state here there unused unlocked exec => exact nofun
  | full now here why => exact nofun
  | create now here room => trivial
  | read slot here => exact Call.works_stage t.call t.generated
  | lock slot reading stage here unlocked =>
    unfold OnRecord at hlater ⊢
    rw [here] at hlater
    exact hlater
  -- the section itself
  | run slot reading stage assigned r state here new exec =>
    obtain ⟨hnow, -, hchecked, hassigned⟩ := hspec.ran_spec hvalid hsane hpast
    unfold OnRecord at h
    rw [here] at h
    exact OnRecord.run h (hslots slot (by rw [here]; rfl)) (htell slot) (hvalid.valid slot) hchecked
      hassigned exec
  | work slot work work' content here step => trivial
  -- only commits are stored, and their reply is `done`
  | stored slot work content result here step =>
    intro reply hreply hdone
    cases result with
    | error e => cases hreply
    | ok _ =>
      cases hreply
      exact absurd rfl hdone
  -- what remains does not change the reply
  | reclaim slot outcome here free same idle
  | leaveSlot slot outcome here free why
  | drop slot outcome here =>
    unfold OnRecord at hlater ⊢
    rw [here] at hlater
    exact hlater

end Steps

/-- A step of an operation keeps the annals of all slots true. -/
theorem Annals.Tell.moves {w w' : Shared store.Content} {t t' : Task store.Work}
    {annals : Nat → Annals} {e : Event} (h : ∀ slot, (annals slot).Tell (w.slots slot).state)
    (hmoves : Moves store w t e w' t') (hvalid : ValidGroups w) (hsane : t.Sane)
    (hpast : t.Past w.clock) (slot : Nat) :
    (Annals.next annals w e slot).Tell (w'.slots slot).state := by
  cases e with
  | quiet =>
    rcases hmoves.quiet_state slot with heq | hnone
    · rw [heq]
      exact h slot
    · rw [hnone]
      exact ⟨(h slot).agrees, nofun⟩
  | ran slot' now assigned generated stage =>
    obtain ⟨-, -, hchecked, hassigned⟩ := hmoves.ran_spec hvalid hsane hpast
    rw [hmoves.ran_state slot]
    -- only the annals of the slot on which the section ran change
    show (Function.update annals slot' _ slot).Tell _
    rw [Function.update_apply]
    split
    · exact (h slot').ran (hvalid.valid slot') hchecked hassigned
    · exact h slot
  | swept slot' now =>
    rw [hmoves.swept_state slot]
    show (Function.update annals slot' _ slot).Tell _
    -- the sweep, too, writes one slot only
    rw [Function.update_apply]
    split
    · exact (h slot').swept (hvalid.valid slot')
    · exact h slot

/-- The annals are true, and every reply is in them. -/
theorem Account.tell {w : System store} {annals : Nat → Annals} (h : Account store w annals) :
    (∀ slot, (annals slot).Tell (w.shared.slots slot).state) ∧
      ∀ t ∈ w.tasks, t.OnRecord w.shared annals := by
  induction h with
  | init clock content =>
    refine ⟨fun slot => ⟨nofun, fun g hg => ?_⟩, fun t ht => absurd ht List.not_mem_nil⟩
    cases hg
  | @step w w' annals e account step ih =>
    obtain ⟨htell, hrecord⟩ := ih
    obtain ⟨l, hrun⟩ := account.reachable
    obtain ⟨hvalid, hsane⟩ := hrun.validGroups
    have hshape := hrun.shape
    cases step with
    | tick clock later =>
      exact ⟨htell, fun t ht => (hrecord t ht).later (fun _ hlt => ⟨hlt, rfl⟩) fun _ => .refl _⟩
    | call call =>
      refine ⟨htell, fun t ht => ?_⟩
      rcases List.mem_cons.mp ht with rfl | ht
      · trivial
      · exact (hrecord t ht).later (fun _ hlt => ⟨hlt, rfl⟩) fun _ => .refl _
    | @move w w' _ t t' before after moves =>
      have hmem : t ∈ before ++ t :: after := by simp
      -- the slot that an operation holds is that of its group
      have hslots : ∀ slot, t.point.used = some slot →
          slot < w.fresh ∧ (w.slots slot).group = t.call.group := fun slot hused =>
        ⟨hshape.held_lt t hmem slot (Point.held_of_used hused),
          hshape.named _ _ (hshape.used t hmem slot hused)⟩
      refine ⟨Annals.Tell.moves htell moves hvalid (hsane t hmem) (hrun.past t hmem), fun u hu => ?_⟩
      -- the records of the others only grow
      have hothers : ∀ v ∈ before ++ t :: after, v.OnRecord w' (Annals.next annals w e) :=
        fun v hv => (hrecord v hv).later (fun _ => moves.group_eq) Annals.grows_next
      simp only [List.mem_append, List.mem_cons] at hu
      rcases hu with hu | rfl | hu
      · exact hothers u (by simp [hu])
      · exact (hrecord t hmem).moves moves hslots hvalid (hsane t hmem) (hrun.past t hmem) htell
      · exact hothers u (by simp [hu])

/-- What clients can rely on about the generations of their groups. -/
structure System.GenerationsAgree (w : System store) (annals : Nat → Annals) : Prop where
  /-- The answers of one era fit together. -/
  agree : ∀ slot, ∀ era ∈ annals slot, era.Agrees
  /-- The last era of a slot shows its group. -/
  current : ∀ slot g, (w.shared.slots slot).state = some g →
    ∃ era rest, annals slot = era :: rest ∧ era.Reflects g
  /-- What an operation has replied, or will reply, is in an era of its group. -/
  reported : ∀ t ∈ w.tasks, ∀ reply, t.point.outcome = some (.ok reply) → reply ≠ .done →
    ∃ slot, (w.shared.slots slot).group = t.call.group ∧
      ∃ era ∈ annals slot, t.call.RecordedIn era t.generated reply

/-- **The generations of a group agree**, whatever operations there are on it: in each era of a
group, generation numbers increase, all joins of a generation are told the same, and all syncs of
a generation are told what one submission of its leader assigns to them. -/
theorem generations_agree {w : System store} {annals : Nat → Annals} (h : Account store w annals) :
    w.GenerationsAgree annals := by
  obtain ⟨htell, hrecord⟩ := h.tell
  refine ⟨fun slot => (htell slot).agrees, fun slot => (htell slot).reflects, ?_⟩
  intro t ht reply hreply hdone
  have hreported : t.Reported w.shared annals (.ok reply) := by
    have hrecord := hrecord t ht
    unfold Task.OnRecord at hrecord
    unfold Point.outcome at hreply
    split at hreply <;> rename_i hpoint
    · rw [hpoint, Option.some.inj hreply] at hrecord
      exact hrecord
    · rw [hpoint, Option.some.inj hreply] at hrecord
      exact hrecord
    · rw [hpoint, Option.some.inj hreply] at hrecord
      exact hrecord
    · cases hreply
  obtain ⟨slot, -, hgroup, hera⟩ := hreported reply rfl hdone
  exact ⟨slot, hgroup, hera⟩

/-- A join and a sync that have been answered, say. -/
theorem generations_agree_committing : ∃ (w : System promptStore) (annals : Nat → Annals),
    Account promptStore w annals ∧
      (w.tasks.any (fun t => t.point.outcome == some (.ok (.synced []))) &&
        w.tasks.any fun t => t.point.outcome ==
          some (.ok (.joined ⟨1, "range", "first", "first", [⟨"first", []⟩]⟩))) = true ∧
      w.GenerationsAgree annals := by
  obtain ⟨w, hreachable, hanswers⟩ := promptRun_reachable committing
    (fun w => w.tasks.any (fun t => t.point.outcome == some (.ok (.synced []))) &&
      w.tasks.any fun t => t.point.outcome ==
        some (.ok (.joined ⟨1, "range", "first", "first", [⟨"first", []⟩]⟩))) (by decide +kernel)
  obtain ⟨annals, haccount⟩ := hreachable.account
  exact ⟨w, annals, haccount, hanswers, generations_agree haccount⟩

end Walstream.Group

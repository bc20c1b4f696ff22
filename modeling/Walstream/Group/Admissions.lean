import Walstream.Group.Generations

/-!
# Commits are let through one after the other

A commit is let through under the lock of its group's slot, by a check of the generation, and the
lock is held until the store is done with it.

- `Exclusive`: a lock that is held is held by one operation.
- `Annals.onward_moves`: no step takes a slot back to an older generation.
- `Docket`: the commits that were let through, with their generations.
-/

namespace Walstream.Group

open Interaction Log
open Std (ExtTreeMap)

variable {store : OffsetStore}

/-! ## The lock of a slot -/

/-- The slot whose lock the operation holds. -/
def Point.locks {Work : Type} : Point Work → Option Nat
  | running slot _ _ => some slot
  | storing slot _ => some slot
  | _ => none

theorem Point.used_of_locks {Work : Type} {point : Point Work} {slot : Nat}
    (h : point.locks = some slot) : point.used = some slot := by
  cases point <;> first | exact h | cases h

/-- The operations that hold the lock of the slot. -/
def lockers (tasks : List (Task store.Work)) (slot : Nat) : Nat :=
  tasks.countP fun t => t.point.locks == some slot

theorem lockers_cons {t : Task store.Work} {others : List (Task store.Work)} {slot : Nat} :
    lockers (t :: others) slot =
      lockers others slot + if t.point.locks = some slot then 1 else 0 := by
  unfold lockers
  rw [List.countP_cons]
  simp only [beq_iff_eq]

/-- A lock that is held is held by one operation. -/
def Exclusive (w : Shared store.Content) (tasks : List (Task store.Work)) : Prop :=
  ∀ slot, lockers tasks slot = if (w.slots slot).locked then 1 else 0

section Locks

variable {w w' : Shared store.Content} {t t' : Task store.Work} {others : List (Task store.Work)}

theorem Exclusive.perm {tasks tasks' : List (Task store.Work)} (hperm : tasks.Perm tasks')
    (h : Exclusive w tasks) : Exclusive w tasks' := by
  intro slot
  rw [← h slot]
  exact (hperm.countP_eq _).symm

/-- While an operation holds the lock, no other one does. -/
theorem Exclusive.alone (h : Exclusive w (t :: others)) {slot : Nat}
    (hlocks : t.point.locks = some slot) : ∀ u ∈ others, u.point.locks ≠ some slot := by
  have hcount := h slot
  rw [lockers_cons, if_pos hlocks] at hcount
  have hzero : lockers others slot = 0 := by
    split at hcount <;> omega
  intro u hu heq
  exact List.countP_eq_zero.mp hzero u hu (beq_iff_eq.mpr heq)

/-- A step that leaves all locks as they are. -/
theorem Exclusive.stay (h : Exclusive w (t :: others))
    (hlocked : ∀ slot, (w'.slots slot).locked = (w.slots slot).locked)
    (hpoint : t'.point.locks = t.point.locks) : Exclusive w' (t' :: others) := by
  intro slot
  rw [hlocked, ← h slot, lockers_cons, lockers_cons, hpoint]

/-- A step that takes or returns the lock of a slot that no other operation holds. -/
theorem Exclusive.turn {slot : Nat} {x : Slot} (h : Exclusive w (t :: others))
    (hothers : ∀ u ∈ others, u.point.locks ≠ some slot)
    (hslots : w'.slots = (w.withSlot slot x).slots)
    (hpoint : ∀ s, s ≠ slot → (t.point.locks = some s ↔ t'.point.locks = some s))
    (hx : x.locked = decide (t'.point.locks = some slot)) : Exclusive w' (t' :: others) := by
  intro s
  rw [hslots, Shared.withSlot_slots]
  by_cases hs : s = slot
  · subst hs
    have hzero : lockers others s = 0 :=
      List.countP_eq_zero.mpr fun u hu heq => hothers u hu (beq_iff_eq.mp heq)
    rw [lockers_cons, hzero, if_pos rfl, hx]
    simp
  · rw [if_neg hs, ← h s, lockers_cons, lockers_cons]
    simp only [hpoint s hs]

theorem Shared.withSlot_locked {slot : Nat} {x : Slot} (hx : x.locked = (w.slots slot).locked)
    (s : Nat) : ((w.withSlot slot x).slots s).locked = (w.slots s).locked := by
  rw [Shared.withSlot_slots]
  split
  · rename_i heq
    rw [heq, hx]
  · rfl

/-- A step of an operation keeps locks exclusive. -/
theorem Exclusive.moves {e : Event} (h : Exclusive w (t :: others)) (hshape : Shape w (t :: others))
    (hmoves : Moves store w t e w' t') : Exclusive w' (t' :: others) := by
  cases hmoves with
  -- no lock is taken or returned
  | refuse e here why
  | absent here valid free absent old
  | sweep left here valid free absent first all
  | skip now slot name left here there used
  | full now here why
  | read slot here
  | work slot work work' content here step
  | leaveSlot slot outcome here free why => exact h.stay (fun _ => rfl) (by rw [here]; rfl)
  | find slot here valid free there =>
    have hlocked : ∀ s, ((w.retain slot).slots s).locked = (w.slots s).locked :=
      Shared.withSlot_locked rfl
    apply h.stay hlocked
    rw [here]
    show Point.locks (match t.call with | _ => _) = _
    cases t.call <;> rfl
  | discard now slot name left changed here there unused unlocked exec =>
    apply h.stay _ (by rw [here]; rfl)
    intro s
    by_cases hs : s = slot <;> simp [Shared.remove, Shared.release, hs]
  | create now here room =>
    -- nobody knows of the new slot yet
    have hnew : ∀ u ∈ t :: others, u.point.locks ≠ some w.fresh := by
      intro u hu heq
      have hlt := hshape.held_lt u hu _ (Point.held_of_used (Point.used_of_locks heq))
      exact lt_irrefl _ hlt
    have hothers : ∀ u ∈ others, u.point.locks ≠ some w.fresh :=
      fun u hu => hnew u (List.mem_cons_of_mem _ hu)
    apply h.turn hothers rfl
    · intro s hs
      rw [here]
      exact Iff.rfl
    · rfl
  | lock slot reading stage here unlocked =>
    -- nobody has a lock that is free
    have hcount := h slot
    rw [lockers_cons, unlocked] at hcount
    have hzero : lockers others slot = 0 := by simpa using (Nat.add_eq_zero_iff.mp hcount).1
    have hothers : ∀ u ∈ others, u.point.locks ≠ some slot :=
      fun u hu heq => List.countP_eq_zero.mp hzero u hu (beq_iff_eq.mpr heq)
    apply h.turn hothers rfl
    · intro s hs
      rw [here]
      simp [Point.locks, Ne.symm hs]
    · simp [Point.locks]
  | run slot reading stage assigned r state here new exec =>
    -- the lock is kept if a commit goes to the store, and returned otherwise
    have hresume : ∀ s, (store.resume t.call.group slot r).locks = some s ↔
        holdsLock r = true ∧ slot = s := by
      intro s
      unfold OffsetStore.resume holdsLock
      split <;> simp [Point.locks]
    have hlocks : t.point.locks = some slot := by
      rw [here]
      rfl
    apply h.turn (h.alone hlocks) rfl
    · intro s hs
      rw [here, hresume]
      simp [Point.locks, Ne.symm hs]
    · simp [hresume]
  | stored slot work content result here step =>
    have hlocks : t.point.locks = some slot := by
      rw [here]
      rfl
    apply h.turn (h.alone hlocks) rfl
    · intro s hs
      rw [here]
      simp [Point.locks, Ne.symm hs]
    · rfl
  | keep now slot name left r state here there unused unlocked exec stays
  | crash now slot name text left state here there unused unlocked exec
  | reclaim slot outcome here free same idle
  | drop slot outcome here => exact h.stay (Shared.withSlot_locked rfl) (by rw [here]; rfl)

end Locks

/-! ## Generations go on -/

/-- Eras are added, and the generation of the last one does not go back. -/
structure Annals.Onward (annals : Annals) (s : Option GroupState) (annals' : Annals)
    (s' : Option GroupState) : Prop where
  length_le : annals.length ≤ annals'.length
  generation_le : annals'.length = annals.length → ∀ k, s' = some k →
    ∃ g, s = some g ∧ g.generationId ≤ k.generationId

section Onward

variable {annals annals₁ annals' : Annals} {s s₁ s' : Option GroupState} {now : Nat}
  {assigned : String} {stage : Stage}

theorem Annals.Onward.refl (annals : Annals) (s : Option GroupState) : annals.Onward s annals s :=
  ⟨le_rfl, fun _ k hk => ⟨k, hk, le_rfl⟩⟩

theorem Annals.Onward.trans (h : annals.Onward s annals₁ s₁) (h' : annals₁.Onward s₁ annals' s') :
    annals.Onward s annals' s' where
  length_le := h.length_le.trans h'.length_le
  generation_le := fun hlength k hk => by
    have hfirst := h.length_le
    have hsecond := h'.length_le
    obtain ⟨g₁, hg₁, hle₁⟩ := h'.generation_le (by omega) k hk
    obtain ⟨g, hg, hle⟩ := h.generation_le (by omega) g₁ hg₁
    exact ⟨g, hg, hle.trans hle₁⟩

theorem Follows.generation_le {x : Option Submission} {g k : GroupState} (h : Follows x g k) :
    g.generationId ≤ k.generationId := by
  cases h with
  | same generation phase charter assigned => exact generation.ge
  | joining generation phase => exact generation.ge
  | completed generation before phase => omega
  | installed assignments generation before phase charter nodup exact assigned =>
    exact generation.ge

theorem Annals.onward_turn {taken : GroupState → GroupState → Option Submission}
    (hfollows : ∀ g k, s = some g → s' = some k → Follows (taken g k) g k) :
    annals.Onward s (annals.turn taken s s') s' := by
  cases s' with
  | none =>
    have hsame : annals.turn taken s none = annals := by cases s <;> rfl
    rw [hsame]
    exact ⟨le_rfl, nofun⟩
  | some k =>
    cases s with
    | none =>
      -- a new era begins
      refine ⟨Nat.le_succ _, fun hlength => ?_⟩
      exact absurd hlength (Nat.succ_ne_self _)
    | some g =>
      have hlength : (annals.turn taken (some g) (some k)).length = annals.length :=
        List.length_modifyHead
      refine ⟨hlength.ge, fun _ k' hk' => ?_⟩
      cases hk'
      exact ⟨g, rfl, (hfollows g k rfl rfl).generation_le⟩

theorem Annals.onward_answer {r : Except Halt Next} :
    annals.Onward s (annals.answer stage r) s := by
  have hlength : (annals.answer stage r).length = annals.length := List.length_modifyHead
  exact ⟨hlength.ge, fun _ k hk => ⟨k, hk, le_rfl⟩⟩

theorem Annals.onward_swept (hvalid : ValidSlot s) :
    annals.Onward s (annals.swept now s) ((advanceGroup now).exec s).2 := by
  have hadvanced := advanceGroup_slot now hvalid
  apply onward_turn
  rintro g k rfl hk
  rw [hk] at hadvanced
  cases hadvanced with
  | group advanced => exact advanced.follows

theorem Annals.onward_ran (hvalid : ValidSlot s) (hchecked : stage.Checked) :
    annals.Onward s (annals.ran now assigned stage s) ((stage.run now assigned).exec s).2 := by
  have hadvanced := advanceGroup_slot now hvalid
  refine ((onward_swept hvalid).trans (onward_turn ?_)).trans onward_answer
  intro g k hg hk
  unfold Stage.run at hk
  rw [Section.exec_bind] at hk
  cases hexec : (advanceGroup now).exec s with
  | mk r s₁ =>
    rw [hexec] at hadvanced hg hk
    obtain rfl : s₁ = some g := hg
    cases r with
    | error e =>
      -- the section ends with `advance_group`
      obtain rfl : g = k := Option.some.inj hk
      rw [Stage.submission_of_phase rfl]
      exact .refl g
    | ok changed =>
      have hdone : Stage.Done now assigned stage (some g)
          ((stage.body now assigned).exec (some g)).1
          ((stage.body now assigned).exec (some g)).2 :=
        Stage.body_done (hadvanced.valid hvalid) hchecked
      have hk : ((stage.body now assigned).exec (some g)).2 = some k := hk
      rw [hk] at hdone
      exact hdone.follows

/-- A step of an operation takes no slot back to an older generation. -/
theorem Annals.onward_moves {w w' : Shared store.Content} {t t' : Task store.Work} {e : Event}
    {annals : Nat → Annals} (hmoves : Moves store w t e w' t') (hvalid : ValidGroups w)
    (hsane : t.Sane) (hpast : t.Past w.clock) (slot : Nat) :
    (annals slot).Onward (w.slots slot).state (Annals.next annals w e slot)
      (w'.slots slot).state := by
  cases e with
  | quiet =>
    -- either nothing happens to the group, or the slot is new and has none
    rcases hmoves.quiet_state slot with heq | hnone
    · rw [heq]
      exact .refl _ _
    · rw [hnone]
      exact ⟨le_rfl, nofun⟩
  | ran slot' now assigned generated stage =>
    obtain ⟨-, -, hchecked, -⟩ := hmoves.ran_spec hvalid hsane hpast
    rw [hmoves.ran_state slot]
    show (annals slot).Onward _ (Function.update annals slot' _ slot) _
    by_cases hslot : slot = slot'
    · rw [hslot, Function.update_self, if_pos rfl]
      exact onward_ran (hvalid.valid slot') hchecked
    · rw [Function.update_of_ne hslot, if_neg hslot]
      exact .refl _ _
  | swept slot' now =>
    rw [hmoves.swept_state slot]
    show (annals slot).Onward _ (Function.update annals slot' _ slot) _
    by_cases hslot : slot = slot'
    · rw [hslot, Function.update_self, if_pos rfl]
      exact onward_swept (hvalid.valid slot')
    · rw [Function.update_of_ne hslot, if_neg hslot]
      exact .refl _ _

end Onward

/-! ## Commits and their sections -/

/-- What an operation is to commit. -/
def Call.commits : Call → List OffsetCommit
  | .commit _ _ _ commits => commits
  | _ => []

theorem Call.eq_commit {call : Call} (h : call.commits ≠ []) :
    ∃ generationId memberId, call = .commit call.group generationId memberId call.commits := by
  cases call with
  | commit group generationId memberId commits => exact ⟨generationId, memberId, rfl⟩
  | _ => exact absurd rfl h

theorem Call.stage_eq_commit_iff {call : Call} {generationId : Int} {memberId : String}
    {commits : List OffsetCommit} : call.stage = .commit generationId memberId commits ↔
      call = .commit call.group generationId memberId commits := by
  cases call <;> simp [Call.stage, Call.group]

/-- The operation is a commit just if its section is that of this commit. -/
def Task.Fits (t : Task store.Work) : Prop :=
  match t.point with
  | .locking _ _ stage | .running _ _ stage => ∀ generationId memberId commits,
    stage = .commit generationId memberId commits ↔
      t.call = .commit t.call.group generationId memberId commits
  | _ => True

/-- No section comes before or after that of a commit. -/
theorem Stage.Done.section_ne {now : Nat} {assigned : String} {stage stage' : Stage}
    {s s' : Option GroupState} (h : Done now assigned stage s (.ok (.section stage')) s') :
    (∀ generationId memberId commits, stage ≠ .commit generationId memberId commits) ∧
      ∀ generationId memberId commits, stage' ≠ .commit generationId memberId commits := by
  generalize hr : (Except.ok (Next.section stage') : Except Halt Next) = r at h
  cases h with
  -- a section is followed by another one of the same operation
  | enter entered => cases entered <;> cases hr <;> exact ⟨nofun, nofun⟩
  | settle =>
    cases hr
    exact ⟨nofun, nofun⟩
  | await awaited =>
    cases awaited <;> cases hr
    exact ⟨nofun, nofun⟩
  | sync synced =>
    cases synced with
    | gone => cases hr
    | rejected e => cases hr
    | installed installed first active phase leader exact told =>
      cases told <;> cases hr
      exact ⟨nofun, nofun⟩
    | heard first active phase told =>
      cases told <;> cases hr
      exact ⟨nofun, nofun⟩
    | looked again active phase told =>
      cases told <;> cases hr
      exact ⟨nofun, nofun⟩
  | heartbeat beaten => cases beaten <;> cases hr
  | leave left => cases left <;> cases hr
  | commit committing => cases committing <;> cases hr

theorem Task.Fits.moves {w w' : Shared store.Content} {t t' : Task store.Work} {e : Event}
    (h : t.Fits) (hmoves : Moves store w t e w' t') (hvalid : ValidGroups w) (hsane : t.Sane) :
    t'.Fits := by
  unfold Task.Fits at h
  cases hmoves with
  -- what an operation comes for decides its stage
  | find slot here valid free there =>
    obtain ⟨call, generated, point⟩ := t
    cases call with
    | join group request => trivial
    | _ => exact fun _ _ _ => Call.stage_eq_commit_iff
  | read slot here => exact fun _ _ _ => Call.stage_eq_commit_iff
  | lock slot reading stage here unlocked =>
    rw [here] at h
    exact h
  -- a section goes on to a commit only from the commit of its own call
  | run slot reading stage assigned r state here new exec =>
    unfold Task.Sane at hsane
    rw [here] at h hsane
    have hran := Stage.run_ran (reading.getD w.clock) assigned stage (hvalid.valid slot) hsane
    rw [exec] at hran
    unfold Task.Fits OffsetStore.resume
    cases r with
    | error halt => trivial
    | ok next =>
      cases next with
      | «section» stage' =>
        cases hran with
        | done changed advanced done =>
          obtain ⟨hstage, hstage'⟩ := done.section_ne
          intro generationId memberId commits
          refine iff_of_false (hstage' generationId memberId commits) fun hcall => ?_
          -- both sides are false: neither stage commits
          exact hstage _ _ _ ((h generationId memberId commits).mpr hcall)
      | store commits => trivial
      | reply result reclaim => cases reclaim <;> trivial
  | _ => trivial

/-- The section of a commit says that all is done only if there is nothing to commit. -/
theorem Stage.Ran.commit_done {now : Nat} {assigned : String} {s s' : Option GroupState}
    {generationId : Int} {memberId : String} {commits : List OffsetCommit} {reply : Reply}
    {reclaim : Bool} (h : Ran now assigned (.commit generationId memberId commits) s
      (.ok (.reply (.ok reply) reclaim)) s') : commits = [] := by
  cases h with
  | done changed advanced done =>
    generalize hr : (Except.ok (Next.reply (.ok reply) reclaim) : Except Halt Next) = r at done
    cases done with
    | commit committing =>
      cases committing with
      | rejected e why => cases hr
      | early active phase => cases hr
      | empty active phase nothing => exact nothing
      | stored active phase something => cases hr

/-- So it does not acknowledge what has yet to go to the store. -/
theorem Stage.Ran.unacknowledged {now slot : Nat} {assigned : String} {stage : Stage}
    {s s' : Option GroupState} {r : Except Halt Next} {call : Call}
    (h : Ran now assigned stage s r s') (hfits : ∀ generationId memberId commits,
      stage = .commit generationId memberId commits ↔
        call = .commit call.group generationId memberId commits) (hne : call.commits ≠ []) :
    (store.resume call.group slot r).outcome ≠ some (.ok .done) := by
  obtain ⟨generationId, memberId, hcall⟩ := Call.eq_commit hne
  obtain rfl := (hfits _ _ _).mpr hcall
  unfold OffsetStore.resume
  cases r with
  | error halt => nofun
  | ok next =>
    cases next with
    | «section» stage' => nofun
    | store commits => nofun
    | reply result reclaim =>
      cases result with
      | error e => cases reclaim <;> nofun
      | ok reply => exact absurd h.commit_done hne

/-! ## Commits that are let through -/

/-- A commit that was let through, with the slot and the era of its group at that time. -/
structure Admission where
  slot : Nat
  era : Nat
  generationId : Int
  memberId : String
  commits : List OffsetCommit

/-- No later generation: the slots of a group, their eras and the generations of an era come one
after the other. -/
def Admission.Le (x y : Admission) : Prop :=
  x.slot < y.slot ∨ x.slot = y.slot ∧
    (x.era < y.era ∨ x.era = y.era ∧ x.generationId ≤ y.generationId)

theorem Admission.Le.refl (x : Admission) : x.Le x := .inr ⟨rfl, .inr ⟨rfl, le_rfl⟩⟩

/-- The commits of each group that were let through, the first one first. -/
abbrev Docket := String → List Admission

/-- The commits that a section lets through, with the era it ends in. -/
def Stage.admits (stage : Stage) (slot era : Nat) (r : Except Halt Next) : List Admission :=
  match stage, r with
  | commit generationId memberId commits, .ok (.store _) =>
    [⟨slot, era, generationId, memberId, commits⟩]
  | _, _ => []

/-- The docket after a step from `w`. -/
def Docket.next {Content : Type} (docket : Docket) (annals : Nat → Annals) (w : Shared Content) :
    Event → Docket
  | .ran slot now assigned generated stage =>
    let group := (w.slots slot).group
    Function.update docket group (docket group ++ stage.admits slot
      (Annals.next annals w (.ran slot now assigned generated stage) slot).length
      ((stage.run now assigned).exec (w.slots slot).state).1)
  | _ => docket

/-- Only a commit goes to the store, and only one of the present generation. -/
theorem Stage.Done.stored {now : Nat} {assigned : String} {stage : Stage} {s s' : Option GroupState}
    {commits : List OffsetCommit} (h : Done now assigned stage s (.ok (.store commits)) s') :
    commits ≠ [] ∧ ∃ generationId memberId g, stage = .commit generationId memberId commits ∧
      s' = some g ∧ g.generationId = generationId := by
  generalize hr : (Except.ok (Next.store commits) : Except Halt Next) = r at h
  -- only the section of a commit hands anything to the store
  cases h with
  | enter entered => cases entered <;> cases hr
  | settle => cases hr
  | await awaited => cases awaited <;> cases hr
  | sync synced =>
    cases synced with
    | gone => cases hr
    | rejected e => cases hr
    | installed installed first active phase leader exact told => cases told <;> cases hr
    | heard first active phase told => cases told <;> cases hr
    | looked again active phase told => cases told <;> cases hr
  | heartbeat beaten => cases beaten <;> cases hr
  | leave left => cases left <;> cases hr
  | commit committing =>
    cases committing with
    | rejected e why => cases hr
    | early active phase => cases hr
    | empty active phase nothing => cases hr
    | stored active phase something =>
      cases hr
      exact ⟨something, _, _, _, rfl, rfl, (activeGroup_spec active).2.2⟩

theorem Stage.Ran.stored {now : Nat} {assigned : String} {stage : Stage} {s s' : Option GroupState}
    {commits : List OffsetCommit} (h : Ran now assigned stage s (.ok (.store commits)) s') :
    commits ≠ [] ∧ ∃ generationId memberId g, stage = .commit generationId memberId commits ∧
      s' = some g ∧ g.generationId = generationId := by
  cases h with
  | done changed advanced done => exact done.stored

/-- No other section lets a commit through. -/
theorem Stage.admits_eq_nil {stage : Stage} {slot era : Nat} {r : Except Halt Next}
    (h : ∀ commits, r ≠ .ok (.store commits)) : stage.admits slot era r = [] := by
  unfold admits
  split
  · rename_i commits
    exact absurd rfl (h commits)
  · rfl

/-- The commit was let through in no later generation than the present one. -/
structure Admission.Dated (x : Admission) {Content : Type} (w : Shared Content)
    (annals : Nat → Annals) (group : String) : Prop where
  slot_lt : x.slot < w.fresh
  mapped : ∀ slot, w.groups[group]? = some slot → x.slot ≤ slot
  era_le : x.era ≤ (annals x.slot).length
  generation_le : x.era = (annals x.slot).length →
    ∀ g, (w.slots x.slot).state = some g → x.generationId ≤ g.generationId

section Dated

variable {w w' : Shared store.Content} {t t' : Task store.Work} {annals : Nat → Annals}
  {group : String} {x : Admission}

/-- A group gets no slot but a new one. -/
theorem Moves.groups_of {e : Event} (h : Moves store w t e w' t') {slot : Nat}
    (hmap : w'.groups[group]? = some slot) : w.groups[group]? = some slot ∨ slot = w.fresh := by
  cases h with
  | create now here room =>
    have hinsert : (w.groups.insert t.call.group w.fresh)[group]? = some slot := hmap
    rw [ExtTreeMap.getElem?_insert] at hinsert
    split at hinsert
    · exact .inr (Option.some.inj hinsert).symm
    · exact .inl hinsert
  | discard now slot' name left changed here there unused unlocked exec =>
    have herase : (w.groups.erase name)[group]? = some slot := hmap
    exact .inl (ExtTreeMap.getElem?_erase_eq_some.mp herase).2
  | reclaim slot' outcome here free same idle =>
    have herase : (w.groups.erase t.call.group)[group]? = some slot := hmap
    exact .inl (ExtTreeMap.getElem?_erase_eq_some.mp herase).2
  | _ => exact .inl hmap

/-- What is in the past stays there. -/
theorem Admission.Dated.moves {e : Event} (h : x.Dated w annals group)
    (hmoves : Moves store w t e w' t') (hvalid : ValidGroups w) (hsane : t.Sane)
    (hpast : t.Past w.clock) : x.Dated w' (Annals.next annals w e) group where
  slot_lt := (hmoves.group_eq h.slot_lt).1
  mapped := fun slot hmap => by
    -- a new slot comes after all that were there
    rcases hmoves.groups_of hmap with hbefore | rfl
    · exact h.mapped slot hbefore
    · exact h.slot_lt.le
  era_le := h.era_le.trans (Annals.onward_moves hmoves hvalid hsane hpast x.slot).length_le
  generation_le := fun hera k hk => by
    have honward := @Annals.onward_moves _ _ _ _ _ _ annals hmoves hvalid hsane hpast x.slot
    have hlength := honward.length_le
    have hbefore := h.era_le
    -- the slot is still in the era of the commit
    obtain ⟨g, hg, hle⟩ := honward.generation_le (by omega) k hk
    exact (h.generation_le (by omega) g hg).trans hle

end Dated

end Walstream.Group

import Walstream.Group.Schedules
import Walstream.Order.TreeMaps

/-!
# One live slot per group

The reference counts of slots are exact (`Shape`): a slot is referred to by the map, if it is
there, and by the operations that hold it. Hence a slot leaves the map only when no operation
can use it any more, and every slot that has a group is the one in the map.
-/

namespace Walstream.Group

open Interaction Log
open Std (ExtTreeMap)

/-! ## Who holds a slot -/

namespace Point

variable {Work : Type}

/-- The slot that the operation holds. -/
def held : Point Work → Option Nat
  | found slot => some slot
  | locking slot _ _ => some slot
  | running slot _ _ => some slot
  | storing slot _ => some slot
  | reclaiming slot _ => some slot
  | dropping slot _ => some slot
  | _ => none

/-- The slot whose state the operation may still read or write. -/
def used : Point Work → Option Nat
  | dropping _ _ => none
  | point => point.held

/-- The operation holds the lock of the map. -/
def isSweeping : Point Work → Bool
  | sweeping _ _ => true
  | _ => false

theorem held_of_used {point : Point Work} {slot : Nat} (h : point.used = some slot) :
    point.held = some slot := by
  cases point <;> first | exact h | cases h

end Point

variable {store : OffsetStore}

/-- The operations that hold the slot. -/
def holders (tasks : List (Task store.Work)) (slot : Nat) : Nat :=
  tasks.countP fun t => t.point.held == some slot

/-- The operations that hold the lock of the map. -/
def sweepers (tasks : List (Task store.Work)) : Nat := tasks.countP fun t => t.point.isSweeping

/-- The slot is the one in the map. -/
def Shared.Listed {Content : Type} (w : Shared Content) (slot : Nat) : Prop :=
  w.groups[(w.slots slot).group]? = some slot

instance {Content : Type} (w : Shared Content) (slot : Nat) : Decidable (w.Listed slot) :=
  inferInstanceAs (Decidable (_ = _))

namespace Shared

variable {Content : Type} {w : Shared Content} {name : String} {slot s : Nat}

/-- More references do not change what is listed. -/
theorem listed_retain : (w.retain slot).Listed s ↔ w.Listed s := by
  unfold Listed
  by_cases hs : s = slot <;> simp [retain, hs]

theorem release_slots : (w.release slot).slots s =
    if s = slot then { w.slots slot with refs := (w.slots slot).refs - 1 } else w.slots s :=
  withSlot_slots ..

theorem release_group : ((w.release slot).slots s).group = (w.slots s).group := by
  rw [release_slots]
  split
  · rename_i hs
    rw [hs]
  · rfl

theorem release_state : ((w.release slot).slots s).state = (w.slots s).state := by
  rw [release_slots]
  split
  · rename_i hs
    rw [hs]
  · rfl

/-- Fewer references do not change what is listed. -/
theorem listed_release : (w.release slot).Listed s ↔ w.Listed s := by
  unfold Listed
  rw [release_group]
  rfl

/-- The map has no pair that it did not have before. -/
theorem remove_groups {k : String} : (w.remove name slot).groups[k]? = some s ↔
    k ≠ name ∧ w.groups[k]? = some s :=
  ExtTreeMap.getElem?_erase_eq_some

/-- The slot that is removed is the only one that is not listed any more. -/
theorem listed_remove (hthere : w.groups[name]? = some slot) (hname : (w.slots slot).group = name) :
    (w.remove name slot).Listed s ↔ s ≠ slot ∧ w.Listed s := by
  have hgroup : ((w.remove name slot).slots s).group = (w.slots s).group := release_group
  unfold Listed
  rw [hgroup, remove_groups]
  constructor
  · intro ⟨hne, hmap⟩
    refine ⟨?_, hmap⟩
    rintro rfl
    exact hne hname
  · intro ⟨hne, hmap⟩
    refine ⟨?_, hmap⟩
    intro heq
    rw [heq, hthere] at hmap
    exact hne (Option.some.inj hmap).symm

theorem create_groups {k : String} : (w.create name).groups[k]? =
    if k = name then some w.fresh else w.groups[k]? :=
  ExtTreeMap.getElem?_insert_ite

theorem create_slots : (w.create name).slots s =
    if s = w.fresh then ⟨name, none, false, 2⟩ else w.slots s :=
  withSlot_slots ..

/-- Of the other slots those are listed that were. -/
theorem listed_create (habsent : w.groups[name]? = none) (hs : s ≠ w.fresh) :
    (w.create name).Listed s ↔ w.Listed s := by
  unfold Listed
  rw [create_slots, if_neg hs, create_groups]
  by_cases heq : (w.slots s).group = name
  · rw [if_pos heq, heq, habsent]
    simp [Ne.symm hs]
  · rw [if_neg heq]

end Shared

/-- The invariant of the map and the slots. -/
structure Shape (w : Shared store.Content) (tasks : List (Task store.Work)) : Prop where
  named : ∀ (name : String) slot, w.groups[name]? = some slot → (w.slots slot).group = name
  mapped_lt : ∀ (name : String) slot, w.groups[name]? = some slot → slot < w.fresh
  held_lt : ∀ t ∈ tasks, ∀ slot, t.point.held = some slot → slot < w.fresh
  refs : ∀ slot, (w.slots slot).refs =
    (if w.Listed slot then 1 else 0) + holders tasks slot
  live : ∀ slot, (w.slots slot).state.isSome → w.Listed slot
  used : ∀ t ∈ tasks, ∀ slot, t.point.used = some slot → w.groups[t.call.group]? = some slot
  locked : sweepers tasks = if w.mapLocked then 1 else 0
  absent : ∀ t ∈ tasks, t.point.isSweeping = true → w.groups[t.call.group]? = none
  size : w.groups.size ≤ maxGroupSlots

theorem Shape.perm {w : Shared store.Content} {tasks tasks' : List (Task store.Work)}
    (hperm : tasks.Perm tasks') (h : Shape w tasks) : Shape w tasks' where
  named := h.named
  mapped_lt := h.mapped_lt
  held_lt := fun t ht => h.held_lt t (hperm.mem_iff.mpr ht)
  refs := fun slot => by
    rw [h.refs slot]
    unfold holders
    rw [hperm.countP_eq]
  live := h.live
  used := fun t ht => h.used t (hperm.mem_iff.mpr ht)
  locked := by
    rw [← h.locked]
    exact (hperm.countP_eq _).symm
  absent := fun t ht => h.absent t (hperm.mem_iff.mpr ht)
  size := h.size

theorem init_groups {clock : Nat} {content : store.Content} (name : String) :
    (System.init clock content : System store).shared.groups[name]? = none :=
  ExtTreeMap.getElem?_empty

theorem Shape.init {clock : Nat} {content : store.Content} :
    Shape (System.init clock content : System store).shared [] where
  named := fun name slot hmap => by
    rw [init_groups] at hmap
    cases hmap
  -- the map is empty, and nobody is there
  mapped_lt := fun name slot hmap => by
    rw [init_groups] at hmap
    cases hmap
  held_lt := fun t ht => absurd ht List.not_mem_nil
  -- no slot is listed or held, and none has references
  refs := fun slot => by
    have hnot : ¬ (System.init clock content : System store).shared.Listed slot := by
      unfold Shared.Listed
      rw [init_groups]
      nofun
    rw [if_neg hnot]
    rfl
  live := fun slot hlive => by
    have hnone : ((System.init clock content : System store).shared.slots slot).state = none := rfl
    simp [hnone] at hlive
  used := fun t ht => absurd ht List.not_mem_nil
  locked := rfl
  absent := fun t ht => absurd ht List.not_mem_nil
  size := by
    have hzero : (System.init clock content : System store).shared.groups.size = 0 :=
      ExtTreeMap.size_empty
    rw [hzero]
    exact Nat.zero_le _

section Steps

variable {w w' : Shared store.Content} {t t' : Task store.Work} {others : List (Task store.Work)}

@[simp] theorem holders_cons {slot : Nat} : holders (t :: others) slot =
    holders others slot + if t.point.held = some slot then 1 else 0 := by
  unfold holders
  rw [List.countP_cons]
  simp only [beq_iff_eq]

@[simp] theorem sweepers_cons : sweepers (t :: others) =
    sweepers others + if t.point.isSweeping then 1 else 0 := by
  unfold sweepers
  rw [List.countP_cons]

/-! The invariant speaks of the operation that moves and of all others, which stay as they are. -/

theorem Shape.held_lt_cons (h : Shape w (t :: others)) {n : Nat} (hle : w.fresh ≤ n)
    (hafter : ∀ slot, t'.point.held = some slot → slot < n) :
    ∀ u ∈ t' :: others, ∀ slot, u.point.held = some slot → slot < n :=
  List.forall_mem_cons.mpr
    ⟨hafter, fun u hu slot hslot => (h.held_lt u (List.mem_cons_of_mem _ hu) slot hslot).trans_le hle⟩

theorem Shape.used_cons (h : Shape w (t :: others))
    (hafter : ∀ slot, t'.point.used = some slot → w.groups[t'.call.group]? = some slot) :
    ∀ u ∈ t' :: others, ∀ slot, u.point.used = some slot → w.groups[u.call.group]? = some slot :=
  List.forall_mem_cons.mpr ⟨hafter, fun u hu => h.used u (List.mem_cons_of_mem _ hu)⟩

theorem Shape.absent_cons (h : Shape w (t :: others))
    (hafter : t'.point.isSweeping = true → w.groups[t'.call.group]? = none) :
    ∀ u ∈ t' :: others, u.point.isSweeping = true → w.groups[u.call.group]? = none :=
  List.forall_mem_cons.mpr ⟨hafter, fun u hu => h.absent u (List.mem_cons_of_mem _ hu)⟩

theorem Shape.locked_cons (h : Shape w (t :: others))
    (hsweeping : t'.point.isSweeping = t.point.isSweeping) :
    sweepers (t' :: others) = if w.mapLocked then 1 else 0 := by
  have hlocked := h.locked
  rw [sweepers_cons] at hlocked ⊢
  rw [hsweeping]
  exact hlocked

/-- An operation that holds nothing uses nothing. -/
theorem Point.used_of_held_eq_none {Work : Type} {point : Point Work} (h : point.held = none)
    {slot : Nat} : point.used ≠ some slot := by
  intro hused
  rw [held_of_used hused] at h
  cases h

/-- A step that keeps the map and the references. -/
theorem Shape.stay (h : Shape w (t :: others)) (hgroups : w'.groups = w.groups)
    (hfresh : w'.fresh = w.fresh) (hlocked : w'.mapLocked = w.mapLocked)
    (hgroup : ∀ slot, (w'.slots slot).group = (w.slots slot).group)
    (hrefs : ∀ slot, (w'.slots slot).refs = (w.slots slot).refs)
    (hlive : ∀ slot, (w'.slots slot).state.isSome →
      (w.slots slot).state.isSome ∨ w.Listed slot)
    (hcall : t'.call = t.call) (hheld : t'.point.held = t.point.held)
    (hused : ∀ slot, t'.point.used = some slot → t.point.used = some slot)
    (hsweeping : t'.point.isSweeping = t.point.isSweeping) : Shape w' (t' :: others) := by
  -- what the map lists depends on the map and the names only
  have hlisted : ∀ slot, w'.Listed slot ↔ w.Listed slot := by
    intro slot
    unfold Shared.Listed
    rw [hgroups, hgroup]
  have hown := List.mem_cons_self (a := t) (l := others)
  exact
  { named := fun name slot hmap => by
      rw [hgroups] at hmap
      rw [hgroup]
      exact h.named name slot hmap
    mapped_lt := fun name slot hmap => by
      rw [hgroups] at hmap
      rw [hfresh]
      exact h.mapped_lt name slot hmap
    held_lt := h.held_lt_cons hfresh.ge fun slot hslot => by
      rw [hfresh]
      exact h.held_lt t hown slot (hheld ▸ hslot)
    -- the operation holds what it held, so that the count is the same
    refs := fun slot => by
      have := h.refs slot
      simp only [holders_cons] at this
      simp only [hrefs, holders_cons, hheld, hlisted]
      exact this
    live := fun slot hsome => by
      rw [hlisted]
      rcases hlive slot hsome with hsome | hmap
      · exact h.live slot hsome
      · exact hmap
    -- who uses a slot was using it before
    used := by
      rw [hgroups]
      refine h.used_cons fun slot hslot => ?_
      rw [hcall]
      exact h.used t hown slot (hused slot hslot)
    locked := by
      rw [hlocked]
      exact h.locked_cons hsweeping
    absent := by
      rw [hgroups]
      refine h.absent_cons fun hsweep => ?_
      rw [hcall]
      exact h.absent t hown (hsweeping ▸ hsweep)
    size := by
      rw [hgroups]
      exact h.size }

/-- A step that changes the state or the lock of one slot. -/
theorem Shape.stayOn (h : Shape w (t :: others)) {slot : Nat} {x : Slot}
    (hslots : w'.slots = (w.withSlot slot x).slots) (hgroups : w'.groups = w.groups)
    (hfresh : w'.fresh = w.fresh) (hlocked : w'.mapLocked = w.mapLocked)
    (hgroup : x.group = (w.slots slot).group) (hrefs : x.refs = (w.slots slot).refs)
    (hlive : x.state.isSome → (w.slots slot).state.isSome ∨ w.Listed slot)
    (hcall : t'.call = t.call) (hheld : t'.point.held = t.point.held)
    (hused : ∀ slot, t'.point.used = some slot → t.point.used = some slot)
    (hsweeping : t'.point.isSweeping = t.point.isSweeping) : Shape w' (t' :: others) := by
  -- the slot that changes and all others are looked at apart
  refine h.stay hgroups hfresh hlocked (fun s => ?_) (fun s => ?_) (fun s hsome => ?_) hcall hheld
    hused hsweeping
  · rw [hslots, Shared.withSlot_slots]
    split
    · rename_i hs
      rw [hs]
      exact hgroup
    · rfl
  · rw [hslots, Shared.withSlot_slots]
    split
    · rename_i hs
      rw [hs]
      exact hrefs
    · rfl
  · rw [hslots, Shared.withSlot_slots] at hsome
    split at hsome
    · rename_i hs
      rw [hs]
      exact hlive hsome
    · exact .inl hsome

/-- An operation gets hold of the slot in the map. -/
theorem Shape.find (h : Shape w (t :: others)) {slot : Nat}
    (hthere : w.groups[t.call.group]? = some slot) (hbefore : t.point.held = none)
    (hidle : t.point.isSweeping = false) (hcall : t'.call = t.call)
    (hafter : t'.point.held = some slot) (hsweeping : t'.point.isSweeping = false) :
    Shape (w.retain slot) (t' :: others) where
  named := fun name s hmap => by
    have hname := h.named name s hmap
    by_cases hs : s = slot <;> simpa [Shared.retain, hs] using hname
  mapped_lt := h.mapped_lt
  held_lt := h.held_lt_cons le_rfl fun s hs => by
    rw [hafter] at hs
    cases hs
    exact h.mapped_lt _ _ hthere
  -- one reference and one holder more, for this slot only
  refs := fun s => by
    have hrefs := h.refs s
    simp only [holders_cons, hbefore, reduceCtorEq, if_false] at hrefs
    simp only [Shared.listed_retain, holders_cons, hafter, Option.some.injEq]
    by_cases hs : s = slot
    · subst hs
      simp [Shared.retain, hrefs]
      omega
    · simp [Shared.retain, hs, Ne.symm hs, hrefs]
  live := fun s hsome => by
    rw [Shared.listed_retain]
    apply h.live s
    by_cases hs : s = slot <;> simpa [Shared.retain, hs] using hsome
  -- the slot that is used is the one that the map gives for this group
  used := h.used_cons fun s hs => by
    have hheld := Point.held_of_used hs
    rw [hafter] at hheld
    cases hheld
    rw [hcall]
    exact hthere
  locked := h.locked_cons (hsweeping.trans hidle.symm)
  absent := h.absent_cons fun hsweep => by
    rw [hsweeping] at hsweep
    cases hsweep
  size := h.size

/-- The lock of the map changes hands, with an operation that holds no slot. -/
theorem Shape.relock (h : Shape w (t :: others)) {locked : Bool} (hbefore : t.point.held = none)
    (hafter : t'.point.held = none)
    (hsweepers : sweepers (t' :: others) = if locked then 1 else 0)
    (habsent : t'.point.isSweeping = true → w.groups[t'.call.group]? = none) :
    Shape { w with mapLocked := locked } (t' :: others) where
  named := h.named
  mapped_lt := h.mapped_lt
  held_lt := h.held_lt_cons le_rfl fun s hs => by
    rw [hafter] at hs
    cases hs
  refs := fun s => by
    have hrefs := h.refs s
    rw [holders_cons, hbefore] at hrefs
    rw [holders_cons, hafter]
    exact hrefs
  live := h.live
  used := h.used_cons fun _ hs => absurd hs (Point.used_of_held_eq_none hafter)
  locked := hsweepers
  absent := h.absent_cons habsent
  size := h.size

/-- A sweep begins. -/
theorem Shape.sweep (h : Shape w (t :: others)) (hfree : w.mapLocked = false)
    (habsent : w.groups[t.call.group]? = none) (hbefore : t.point.held = none)
    (hcall : t'.call = t.call) (hafter : t'.point.held = none)
    (hsweeping : t'.point.isSweeping = true) :
    Shape { w with mapLocked := true } (t' :: others) := by
  refine h.relock hbefore hafter ?_ fun _ => hcall ▸ habsent
  -- nobody was sweeping, as the map was not locked
  have hlocked := h.locked
  rw [sweepers_cons, hfree] at hlocked
  rw [sweepers_cons, hsweeping]
  simp only [if_true, Bool.false_eq_true, if_false] at hlocked ⊢
  omega

/-- Nobody else holds the lock of the map during a sweep. -/
theorem Shape.sweepers_eq (h : Shape w (t :: others)) (hsweeping : t.point.isSweeping = true) :
    sweepers others = 0 ∧ w.mapLocked = true := by
  have hlocked := h.locked
  rw [sweepers_cons, hsweeping, if_pos rfl] at hlocked
  cases hmap : w.mapLocked with
  | false => simp [hmap] at hlocked
  | true =>
    simp only [hmap, if_true] at hlocked
    exact ⟨by omega, rfl⟩

/-- The sweep that ends was the only one. -/
theorem Shape.sweepers_done (h : Shape w (t :: others)) (hsweeping : t.point.isSweeping = true)
    (hidle : t'.point.isSweeping = false) : sweepers (t' :: others) = 0 := by
  obtain ⟨hnone, -⟩ := h.sweepers_eq hsweeping
  rw [sweepers_cons, hidle, hnone]
  rfl

/-- A sweep ends without a slot. -/
theorem Shape.giveUp (h : Shape w (t :: others)) (hsweeping : t.point.isSweeping = true)
    (hbefore : t.point.held = none) (hafter : t'.point.held = none)
    (hidle : t'.point.isSweeping = false) :
    Shape { w with mapLocked := false } (t' :: others) :=
  h.relock hbefore hafter (h.sweepers_done hsweeping hidle) fun hsweep => by
    rw [hidle] at hsweep
    cases hsweep

/-- A sweep ends with a new slot. -/
theorem Shape.create (h : Shape w (t :: others)) (hsweeping : t.point.isSweeping = true)
    (hroom : w.groups.size < maxGroupSlots) (hbefore : t.point.held = none)
    (hcall : t'.call = t.call) (hafter : t'.point.held = some w.fresh)
    (hidle : t'.point.isSweeping = false) :
    Shape (w.create t.call.group) (t' :: others) := by
  have habsent := h.absent t List.mem_cons_self hsweeping
  obtain ⟨hnone, -⟩ := h.sweepers_eq hsweeping
  -- the new slot is not one of those that anybody knows
  have hnew : ∀ (name : String) s, w.groups[name]? = some s → s ≠ w.fresh := by
    intro name s hmap heq
    have := h.mapped_lt name s hmap
    omega
  have hunheld : holders others w.fresh = 0 := by
    unfold holders
    rw [List.countP_eq_zero]
    intro u hu hheld
    have := h.held_lt u (List.mem_cons_of_mem _ hu) w.fresh (beq_iff_eq.mp hheld)
    omega
  exact
  { named := fun name s hmap => by
      rw [Shared.create_groups] at hmap
      rw [Shared.create_slots]
      split at hmap
      · rename_i heq
        cases hmap
        rw [if_pos rfl, heq]
      · rw [if_neg (hnew name s hmap)]
        exact h.named name s hmap
    mapped_lt := fun name s hmap => by
      rw [Shared.create_groups] at hmap
      show s < w.fresh + 1
      split at hmap
      · cases hmap
        omega
      · have := h.mapped_lt name s hmap
        omega
    held_lt := h.held_lt_cons (Nat.le_succ _) fun s hs => by
      rw [hafter] at hs
      cases hs
      exact Nat.lt_succ_self _
    -- the new slot is referred to by the map and by the operation
    refs := fun s => by
      have hrefs := h.refs s
      simp only [holders_cons, hbefore, reduceCtorEq, if_false] at hrefs
      simp only [holders_cons, hafter, Option.some.injEq]
      by_cases hs : s = w.fresh
      · have hin : (w.create t.call.group).Listed s := by
          unfold Shared.Listed
          rw [Shared.create_slots, if_pos hs, Shared.create_groups, if_pos rfl, hs]
        rw [if_pos hin, if_pos hs.symm, Shared.create_slots, if_pos hs, hs, hunheld]
      · rw [if_neg (Ne.symm hs), Shared.create_slots, if_neg hs]
        simp only [Shared.listed_create habsent hs]
        exact hrefs
    -- the new slot has no group yet
    live := fun s hsome => by
      rw [Shared.create_slots] at hsome
      split at hsome
      · cases hsome
      · rename_i hs
        rw [Shared.listed_create habsent hs]
        exact h.live s hsome
    used := fun u hu s hs => by
      rw [Shared.create_groups]
      rcases List.mem_cons.mp hu with rfl | hu
      · have hheld := Point.held_of_used hs
        rw [hafter] at hheld
        cases hheld
        rw [hcall, if_pos rfl]
      -- others work on other groups, as this one was absent
      · have hmap := h.used u (List.mem_cons_of_mem _ hu) s hs
        have hne : u.call.group ≠ t.call.group := by
          intro heq
          rw [heq, habsent] at hmap
          cases hmap
        rw [if_neg hne]
        exact hmap
    locked := h.sweepers_done hsweeping hidle
    -- there was no other sweep
    absent := List.forall_mem_cons.mpr
      ⟨fun hsweep => absurd (hidle.symm.trans hsweep) Bool.false_ne_true,
        fun u hu hsweep => absurd hsweep (List.countP_eq_zero.mp hnone u hu)⟩
    size := by
      show (w.groups.insert t.call.group w.fresh).size ≤ maxGroupSlots
      have := ExtTreeMap.size_insert_le (t := w.groups) (k := t.call.group) (v := w.fresh)
      omega }

/-- The slot leaves the map, which is the last place from which it can be found. -/
theorem Shape.remove (h : Shape w (t :: others)) {name : String} {slot : Nat}
    (hthere : w.groups[name]? = some slot) (hidle : (w.slots slot).state = none)
    (hunused : ∀ u ∈ t' :: others, u.point.used ≠ some slot)
    (hcall : t'.call = t.call) (hheld : t'.point.held = t.point.held)
    (hused : ∀ s, t'.point.used = some s → t.point.used = some s)
    (hsweeping : t'.point.isSweeping = t.point.isSweeping) :
    Shape (w.remove name slot) (t' :: others) := by
  have hown := List.mem_cons_self (a := t) (l := others)
  have hname := h.named name slot hthere
  -- the slots are those of a release
  have hslots : (w.remove name slot).slots = (w.release slot).slots := rfl
  exact
  { named := fun k s hmap => by
      rw [hslots, Shared.release_group]
      exact h.named k s (Shared.remove_groups.mp hmap).2
    mapped_lt := fun k s hmap => h.mapped_lt k s (Shared.remove_groups.mp hmap).2
    held_lt := h.held_lt_cons le_rfl fun s hs => h.held_lt t hown s (hheld ▸ hs)
    -- the reference of the map goes with its pair
    refs := fun s => by
      have hrefs := h.refs s
      rw [holders_cons] at hrefs ⊢
      rw [hheld, hslots]
      simp only [Shared.listed_remove hthere hname]
      by_cases hs : s = slot
      · subst hs
        have hin : w.Listed s := by
          unfold Shared.Listed
          rw [hname]
          exact hthere
        rw [Shared.release_slots, if_pos rfl]
        rw [if_pos hin] at hrefs
        simp only [ne_eq, not_true_eq_false, false_and, if_false]
        omega
      · rw [Shared.release_slots, if_neg hs]
        simp only [ne_eq, hs, not_false_eq_true, true_and]
        exact hrefs
    -- the slot itself has no group
    live := fun s hsome => by
      rw [hslots, Shared.release_state] at hsome
      rw [Shared.listed_remove hthere hname]
      refine ⟨?_, h.live s hsome⟩
      rintro rfl
      rw [hidle] at hsome
      cases hsome
    -- nobody uses the slot, so that what others use is still there
    used := fun u hu s hs => by
      have hmap := h.used_cons (fun s hs => hcall ▸ h.used t hown s (hused s hs)) u hu s hs
      rw [Shared.remove_groups]
      refine ⟨?_, hmap⟩
      intro heq
      rw [heq, hthere] at hmap
      exact hunused u hu (hmap ▸ hs)
    locked := h.locked_cons hsweeping
    absent := fun u hu hsweep => by
      have hnone := h.absent_cons
        (fun hsweep => hcall ▸ h.absent t hown (hsweeping ▸ hsweep)) u hu hsweep
      rw [Option.eq_none_iff_forall_ne_some]
      intro s hmap
      rw [Shared.remove_groups, hnone] at hmap
      cases hmap.2
    size := ExtTreeMap.size_erase_le.trans h.size }

/-- An operation drops its slot. -/
theorem Shape.drop (h : Shape w (t :: others)) {slot : Nat} (hbefore : t.point.held = some slot)
    (hidle : t.point.isSweeping = false) (hafter : t'.point.held = none)
    (hsweeping : t'.point.isSweeping = false) : Shape (w.release slot) (t' :: others) where
  named := fun name s hmap => by
    rw [Shared.release_group]
    exact h.named name s hmap
  mapped_lt := h.mapped_lt
  held_lt := h.held_lt_cons le_rfl fun s hs => by
    rw [hafter] at hs
    cases hs
  -- one reference and one holder less, for this slot only
  refs := fun s => by
    have hrefs := h.refs s
    simp only [holders_cons, hbefore, Option.some.injEq] at hrefs
    simp only [holders_cons, hafter, reduceCtorEq, if_false, Shared.listed_release]
    by_cases hs : s = slot
    · subst hs
      rw [Shared.release_slots, if_pos rfl]
      rw [if_pos rfl] at hrefs
      show (w.slots s).refs - 1 = _
      omega
    · rw [Shared.release_slots, if_neg hs]
      rw [if_neg (Ne.symm hs)] at hrefs
      exact hrefs
  live := fun s hsome => by
    rw [Shared.release_state] at hsome
    rw [Shared.listed_release]
    exact h.live s hsome
  used := h.used_cons fun _ hs => absurd hs (Point.used_of_held_eq_none hafter)
  locked := h.locked_cons (hsweeping.trans hidle.symm)
  absent := h.absent_cons fun hsweep => by
    rw [hsweeping] at hsweep
    cases hsweep
  size := h.size

theorem Shape.listed_of_mapped {tasks : List (Task store.Work)} (h : Shape w tasks) {name : String}
    {slot : Nat} (hmap : w.groups[name]? = some slot) : w.Listed slot := by
  unfold Shared.Listed
  rw [h.named name slot hmap]
  exact hmap

/-- A slot that nobody but the map refers to is held by nobody. -/
theorem Shape.unheld {tasks : List (Task store.Work)} (h : Shape w tasks) {name : String}
    {slot : Nat} (hmap : w.groups[name]? = some slot) (hrefs : (w.slots slot).refs = 1) :
    ∀ u ∈ tasks, u.point.held ≠ some slot := by
  have hsum := h.refs slot
  rw [if_pos (h.listed_of_mapped hmap)] at hsum
  have hnone : holders tasks slot = 0 := by omega
  intro u hu hheld
  exact List.countP_eq_zero.mp hnone u hu (beq_iff_eq.mpr hheld)

/-- A step of an operation keeps the invariant. -/
theorem Shape.moves {e : Event} (h : Shape w (t :: others)) (hmoves : Moves store w t e w' t') :
    Shape w' (t' :: others) := by
  cases hmoves with
  | refuse e here why =>
    exact h.stay rfl rfl rfl (fun _ => rfl) (fun _ => rfl) (fun _ hs => .inl hs) rfl
      (by rw [here]; rfl) (fun _ hs => nomatch hs) (by rw [here]; rfl)
  -- the operation goes on with a section of its own, whatever the call
  | find slot here valid free there =>
    refine h.find there (by rw [here]; rfl) (by rw [here]; rfl) rfl ?_ ?_
    · show Point.held (match t.call with | _ => _) = _
      cases t.call <;> rfl
    · show Point.isSweeping (match t.call with | _ => _) = _
      cases t.call <;> rfl
  | absent here valid free absent old =>
    exact h.stay rfl rfl rfl (fun _ => rfl) (fun _ => rfl) (fun _ hs => .inl hs) rfl
      (by rw [here]; rfl) (fun _ hs => nomatch hs) (by rw [here]; rfl)
  | sweep left here valid free absent first all =>
    exact h.sweep free absent (by rw [here]; rfl) rfl rfl rfl
  | skip now slot name left here there used =>
    exact h.stay rfl rfl rfl (fun _ => rfl) (fun _ => rfl) (fun _ hs => .inl hs) rfl
      (by rw [here]; rfl) (fun _ hs => nomatch hs) (by rw [here]; rfl)
  -- the sweep has changed the state of a slot that is listed
  | keep now slot name left r state here there unused unlocked exec stays =>
    exact h.stayOn rfl rfl rfl rfl rfl rfl (fun _ => .inr (h.listed_of_mapped there)) rfl
      (by rw [here]; rfl) (fun _ hs => nomatch hs) (by rw [here]; rfl)
  -- an emptied slot is removed, and nobody works on it
  | discard now slot name left changed here there unused unlocked exec =>
    have hunheld := h.unheld there unused
    have hempty : Shape (w.withSlot slot { w.slots slot with state := none }) (t :: others) :=
      h.stayOn rfl rfl rfl rfl rfl rfl (fun hs => nomatch hs) rfl rfl (fun _ hs => hs) rfl
    refine hempty.remove there (by simp) (fun u hu hused => ?_) rfl (by rw [here]; rfl)
      (fun _ hs => nomatch hs) (by rw [here]; rfl)
    rcases List.mem_cons.mp hu with rfl | hu
    · cases hused
    · exact hunheld u (List.mem_cons_of_mem _ hu) (Point.held_of_used hused)
  -- the sweep ends with the panic
  | crash now slot name text left state here there unused unlocked exec =>
    have hkept : Shape (w.withSlot slot { w.slots slot with state }) (t :: others) :=
      h.stayOn rfl rfl rfl rfl rfl rfl (fun _ => .inr (h.listed_of_mapped there)) rfl rfl
        (fun _ hs => hs) rfl
    exact hkept.giveUp (by rw [here]; rfl) (by rw [here]; rfl) rfl rfl
  | full now here why => exact h.giveUp (by rw [here]; rfl) (by rw [here]; rfl) rfl rfl
  | create now here room =>
    exact h.create (by rw [here]; rfl) room (by rw [here]; rfl) rfl rfl rfl
  | read slot here =>
    exact h.stay rfl rfl rfl (fun _ => rfl) (fun _ => rfl) (fun _ hs => .inl hs) rfl
      (by rw [here]; rfl) (fun _ hs => by rw [here]; exact hs) (by rw [here]; rfl)
  | lock slot reading stage here unlocked =>
    exact h.stayOn rfl rfl rfl rfl rfl rfl .inl rfl (by rw [here]; rfl)
      (fun _ hs => by rw [here]; exact hs) (by rw [here]; rfl)
  -- an operation uses the slot that it runs on until it replies
  | run slot reading stage assigned r state here new exec =>
    have hmap := h.used t List.mem_cons_self slot (by rw [here]; rfl)
    have hresume : (store.resume t.call.group slot r).held = some slot ∧
        (store.resume t.call.group slot r).isSweeping = false := by
      unfold OffsetStore.resume
      split <;> exact ⟨rfl, rfl⟩
    refine h.stayOn rfl rfl rfl rfl rfl rfl (fun _ => .inr (h.listed_of_mapped hmap)) rfl ?_
      (fun s hs => ?_) ?_
    · rw [here]
      exact hresume.1
    · rw [here]
      exact hresume.1.symm.trans (Point.held_of_used hs)
    · rw [here]
      exact hresume.2
  | work slot work work' content here step =>
    exact h.stay rfl rfl rfl (fun _ => rfl) (fun _ => rfl) (fun _ hs => .inl hs) rfl
      (by rw [here]; rfl) (fun _ hs => by rw [here]; exact hs) (by rw [here]; rfl)
  | stored slot work content result here step =>
    exact h.stayOn rfl rfl rfl rfl rfl rfl .inl rfl (by rw [here]; rfl)
      (fun _ hs => nomatch hs) (by rw [here]; rfl)
  | reclaim slot outcome here free same idle =>
    -- the map and this operation are the only ones that refer to the slot
    simp only [Slot.reclaimable, Bool.and_eq_true, beq_iff_eq, Bool.not_eq_true',
      Option.isNone_iff_eq_none] at idle
    obtain ⟨⟨hrefs, -⟩, hstate⟩ := idle
    have hsum := h.refs slot
    rw [if_pos (h.listed_of_mapped same), holders_cons, if_pos (by rw [here]; rfl)] at hsum
    have hothers : holders others slot = 0 := by omega
    refine h.remove same hstate (fun u hu hused => ?_) rfl (by rw [here]; rfl)
      (fun _ hs => nomatch hs) (by rw [here]; rfl)
    rcases List.mem_cons.mp hu with rfl | hu
    · cases hused
    · exact List.countP_eq_zero.mp hothers u hu (beq_iff_eq.mpr (Point.held_of_used hused))
  | leaveSlot slot outcome here free why =>
    exact h.stay rfl rfl rfl (fun _ => rfl) (fun _ => rfl) (fun _ hs => .inl hs) rfl
      (by rw [here]; rfl) (fun _ hs => nomatch hs) (by rw [here]; rfl)
  | drop slot outcome here =>
    exact h.drop (by rw [here]; rfl) (by rw [here]; rfl) rfl rfl

end Steps

/-- A call holds nothing. -/
theorem Shape.call {w : Shared store.Content} {tasks : List (Task store.Work)} (h : Shape w tasks)
    (call : Call) : Shape w (⟨call, none, .called⟩ :: tasks) where
  named := h.named
  mapped_lt := h.mapped_lt
  held_lt := fun u hu s hs => by
    rcases List.mem_cons.mp hu with rfl | hu
    · cases hs
    · exact h.held_lt u hu s hs
  refs := fun s => by
    rw [holders_cons]
    exact h.refs s
  live := h.live
  used := fun u hu s hs => by
    rcases List.mem_cons.mp hu with rfl | hu
    · cases hs
    · exact h.used u hu s hs
  locked := by
    rw [sweepers_cons]
    exact h.locked
  absent := fun u hu hsweep => by
    rcases List.mem_cons.mp hu with rfl | hu
    · cases hsweep
    · exact h.absent u hu hsweep
  size := h.size

/-- Time does not change the slots. -/
theorem Shape.tick {w : Shared store.Content} {tasks : List (Task store.Work)} (h : Shape w tasks)
    (clock : Nat) : Shape { w with clock } tasks :=
  ⟨h.named, h.mapped_lt, h.held_lt, h.refs, h.live, h.used, h.locked, h.absent, h.size⟩

theorem Shape.step {w w' : System store} {e : Event} (h : Shape w.shared w.tasks)
    (hstep : Step store w e w') : Shape w'.shared w'.tasks := by
  cases hstep with
  | tick clock later => exact h.tick clock
  | call call => exact h.call call
  | move before after moves =>
    have hfront := (h.perm List.perm_middle).moves moves
    exact hfront.perm List.perm_middle.symm

theorem Run.shape {P : System store → Ledger → Event → Prop} {w : System store} {l : Ledger}
    (hrun : Run store P w l) : Shape w.shared w.tasks := by
  induction hrun with
  | init clock content l => exact .init
  | step run meets step ih => exact ih.step step

/-! ## The slots of the coordinator -/

/-- What the reference counts of slots are for. -/
structure System.OneSlotPerGroup (w : System store) : Prop where
  /-- A slot that has a group is the one that the map has for it. -/
  live : ∀ slot, (w.shared.slots slot).state.isSome →
    w.shared.groups[(w.shared.slots slot).group]? = some slot
  /-- So is a slot that an operation may still read or write. -/
  used : ∀ t ∈ w.tasks, ∀ slot, t.point.used = some slot →
    (w.shared.slots slot).group = t.call.group ∧ w.shared.groups[t.call.group]? = some slot
  /-- There are never two groups of one name. -/
  unique : ∀ slot slot', (w.shared.slots slot).state.isSome → (w.shared.slots slot').state.isSome →
    (w.shared.slots slot).group = (w.shared.slots slot').group → slot = slot'
  /-- Reference counts count the map and the operations that hold the slot. -/
  refs : ∀ slot, (w.shared.slots slot).refs =
    (if w.shared.Listed slot then 1 else 0) + holders w.tasks slot
  size : w.shared.groups.size ≤ maxGroupSlots

/-- **One live slot per group**, in every state that the coordinator can reach. -/
theorem reachable_oneSlotPerGroup (store : OffsetStore) (w : System store) (h : Reachable w) :
    w.OneSlotPerGroup := by
  obtain ⟨l, hrun⟩ := h
  have hshape := hrun.shape
  exact
  { live := hshape.live
    used := fun t ht slot hslot => by
      have hmap := hshape.used t ht slot hslot
      exact ⟨hshape.named _ _ hmap, hmap⟩
    unique := fun slot slot' hsome hsome' heq => by
      have hmap := hshape.live slot hsome
      have hmap' := hshape.live slot' hsome'
      unfold Shared.Listed at hmap hmap'
      rw [heq, hmap'] at hmap
      exact (Option.some.inj hmap).symm
    refs := hshape.refs
    size := hshape.size }

/-- While a commit has the lock of its slot, say. -/
theorem reachable_oneSlotPerGroup_committing : ∃ w : System promptStore, Reachable w ∧
    w.commits "group" 0 1 = true ∧ w.OneSlotPerGroup := by
  obtain ⟨w, hreachable, hcommits⟩ := promptRun_reachable committing
    (fun w => w.commits "group" 0 1) (by decide +kernel)
  exact ⟨w, hreachable, hcommits, reachable_oneSlotPerGroup promptStore w hreachable⟩

end Walstream.Group

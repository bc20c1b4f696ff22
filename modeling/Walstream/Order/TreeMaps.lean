import Mathlib.Algebra.Order.BigOperators.Group.List
import Mathlib.Algebra.Order.Group.Nat
import Mathlib.Tactic.Linarith

/-!
# Sorted maps by their entries

Facts about `Std.ExtTreeMap` with keys compared by a lawful order: conditions on all entries,
what is left by a filter, and the total weight of a map.
-/

namespace Std.ExtTreeMap

variable {α β γ : Type} [Ord α] [TransOrd α] {t : ExtTreeMap α β compare}

theorem mem_iff_exists {k : α} : k ∈ t ↔ ∃ v, t[k]? = some v := by
  rw [mem_iff_isSome_getElem?, Option.isSome_iff_exists]

theorem isEmpty_iff_forall : t.isEmpty = true ↔ ∀ k : α, t[k]? = none := by
  rw [isEmpty_iff, eq_empty_iff_forall_not_mem]
  simp only [mem_iff_isSome_getElem?, Bool.not_eq_true, Option.isSome_eq_false_iff,
    Option.isNone_iff_eq_none]

variable [LawfulEqOrd α]

/-- A condition on the listed entries is one on the entries found by lookup. -/
theorem forall_toList {P : α × β → Prop} :
    (∀ p ∈ t.toList, P p) ↔ ∀ k v, t[k]? = some v → P (k, v) := by
  constructor
  · intro h k v hk
    exact h (k, v) (mem_toList_iff_getElem?_eq_some.mpr hk)
  · rintro h ⟨k, v⟩ hp
    exact h k v (mem_toList_iff_getElem?_eq_some.mp hp)

theorem all_toList {p : α × β → Bool} :
    t.toList.all p = true ↔ ∀ k v, t[k]? = some v → p (k, v) = true := by
  rw [List.all_eq_true]
  exact forall_toList

@[simp] theorem getElem?_filter_eq_some {f : α → β → Bool} {k : α} {v : β} :
    (t.filter f)[k]? = some v ↔ t[k]? = some v ∧ f k v = true := by
  rw [getElem?_filter', Option.filter_eq_some_iff]

/-! ## Lookup after an update -/

section Updates

variable [DecidableEq α]

theorem getElem?_insert_ite {k a : α} {v : β} :
    (t.insert k v)[a]? = if a = k then some v else t[a]? := by
  rw [getElem?_insert]
  by_cases heq : a = k
  · simp [heq]
  · have hcmp : compare k a ≠ .eq := fun h => heq (compare_eq_iff_eq.mp h).symm
    simp [hcmp, heq]

theorem getElem?_erase_eq_some {k a : α} {v : β} :
    (t.erase k)[a]? = some v ↔ a ≠ k ∧ t[a]? = some v := by
  rw [getElem?_erase]
  by_cases heq : a = k
  · simp [heq]
  · have hcmp : compare k a ≠ .eq := fun h => heq (compare_eq_iff_eq.mp h).symm
    simp [hcmp, heq]

/-- Erasing a key leaves the entries under other keys. -/
theorem erase_eq_filter {k : α} : t.erase k = t.filter fun a _ => decide (a ≠ k) := by
  apply ext_getElem?
  intro a
  apply Option.ext
  intro v
  rw [getElem?_erase_eq_some, getElem?_filter_eq_some, decide_eq_true_eq, and_comm]

theorem erase_of_notMem {k : α} (h : k ∉ t) : t.erase k = t := by
  apply ext_getElem?
  intro a
  apply Option.ext
  intro v
  rw [getElem?_erase_eq_some]
  refine ⟨fun hv => hv.2, fun hv => ⟨?_, hv⟩⟩
  rintro rfl
  exact h (mem_iff_exists.mpr ⟨v, hv⟩)

theorem erase_map {k : α} {f : α → β → γ} : (t.map f).erase k = (t.erase k).map f := by
  apply ext_getElem?
  intro a
  apply Option.ext
  intro w
  simp only [getElem?_erase_eq_some, getElem?_map, Option.map_eq_some_iff, and_assoc,
    exists_and_left]

/-- A modification is a map that touches one key. -/
theorem modify_eq_map {k : α} {f : β → β} :
    t.modify k f = t.map fun a v => if a = k then f v else v := by
  apply ext_getElem?
  intro a
  rw [getElem?_modify, getElem?_map]
  by_cases heq : a = k
  · simp [heq]
  · have hcmp : compare k a ≠ .eq := fun h => heq (compare_eq_iff_eq.mp h).symm
    simp [hcmp, heq]

end Updates

omit [LawfulEqOrd α] in
/-- A map that is not empty has a first key. -/
theorem exists_minKey? (h : ∃ k, k ∈ t) : ∃ k, t.minKey? = some k ∧ k ∈ t := by
  obtain ⟨k, hk⟩ := h
  have hne : t.minKey?.isSome := isSome_minKey?_of_mem hk
  obtain ⟨m, hm⟩ := Option.isSome_iff_exists.mp hne
  exact ⟨m, hm, minKey?_mem hm⟩

/-! ## Weights -/

theorem nodup_toList : t.toList.Nodup := by
  apply List.Pairwise.imp (R := fun a b : α × β => ¬ compare a.1 b.1 = .eq)
  · rintro a b hne rfl
    exact hne compare_self
  · exact distinct_keys_toList

/-- An insertion lists the new entry and the entries under other keys. -/
theorem toList_insert_perm (k : α) (v : β) :
    (t.insert k v).toList.Perm ((k, v) :: (t.erase k).toList) := by
  have hnot : (k, v) ∉ (t.erase k).toList := by
    rw [mem_toList_iff_getElem?_eq_some, getElem?_erase_self]
    simp
  apply (List.perm_ext_iff_of_nodup nodup_toList (List.nodup_cons.mpr ⟨hnot, nodup_toList⟩)).mpr
  rintro ⟨k', v'⟩
  simp only [List.mem_cons, mem_toList_iff_getElem?_eq_some, getElem?_insert, getElem?_erase,
    Prod.mk.injEq]
  by_cases heq : k = k'
  · subst heq
    simp [eq_comm]
  · have hcmp : compare k k' ≠ .eq := fun h => heq (compare_eq_iff_eq.mp h)
    simp [hcmp, heq, eq_comm]

theorem toList_erase_perm [DecidableEq α] (k : α) :
    (t.erase k).toList.Perm (t.toList.filter fun p => decide (p.1 ≠ k)) := by
  apply (List.perm_ext_iff_of_nodup nodup_toList (nodup_toList.filter _)).mpr
  rintro ⟨k', v'⟩
  simp only [List.mem_filter, mem_toList_iff_getElem?_eq_some, getElem?_erase, decide_eq_true_eq]
  by_cases heq : k = k'
  · subst heq
    simp
  · have hcmp : compare k k' ≠ .eq := fun h => heq (compare_eq_iff_eq.mp h)
    simp [hcmp, Ne.symm heq]

/-- A map is made of its own entries. -/
theorem ofList_toList [DecidableEq α] : ofList t.toList compare = t := by
  apply ext_getElem?
  intro k
  by_cases hmem : k ∈ t
  · obtain ⟨v, hv⟩ := mem_iff_exists.mp hmem
    rw [hv]
    exact getElem?_ofList_of_mem compare_self distinct_keys_toList
      (mem_toList_iff_getElem?_eq_some.mpr hv)
  · rw [getElem?_eq_none hmem]
    apply getElem?_ofList_of_contains_eq_false
    rw [map_fst_toList_eq_keys]
    simpa using hmem

omit [TransOrd α] in
/-- Keys that differ are not equal in the order either. -/
theorem distinct_of_nodup {l : List (α × β)} (h : (l.map Prod.fst).Nodup) :
    l.Pairwise fun a b => ¬ compare a.1 b.1 = .eq := by
  apply (List.pairwise_map.mp h).imp
  intro a b hne heq
  exact hne (LawfulEqOrd.eq_of_compare heq)

/-- A map made of a list with so many entries has all of them. -/
theorem nodup_of_size_ofList [DecidableEq α] {l : List (α × β)}
    (h : (ofList l compare).size = l.length) : (l.map Prod.fst).Nodup := by
  have hsubset : (ofList l compare).keys ⊆ l.map Prod.fst := by
    intro k hk
    simpa using mem_keys.mp hk
  have hperm : (ofList l compare).keys.Perm (l.map Prod.fst) := by
    apply (List.subperm_of_subset nodup_keys hsubset).perm_of_length_le
    rw [List.length_map, length_keys, h]
  exact hperm.nodup_iff.mp nodup_keys

theorem getElem?_ofList_iff [DecidableEq α] {l : List (α × β)} (h : (l.map Prod.fst).Nodup)
    {k : α} {v : β} : (ofList l compare)[k]? = some v ↔ (k, v) ∈ l := by
  have hmem : ∀ v', (k, v') ∈ l → (ofList l compare)[k]? = some v' := fun v' =>
    getElem?_ofList_of_mem compare_self (distinct_of_nodup h)
  constructor
  · intro hv
    have hk : k ∈ l.map Prod.fst := by simpa using mem_iff_exists.mpr ⟨v, hv⟩
    obtain ⟨⟨k', v'⟩, hp, rfl⟩ := List.mem_map.mp hk
    rw [hmem v' hp] at hv
    cases hv
    exact hp
  · exact hmem v

/-- The total weight of the values. -/
def weight (f : β → Nat) (t : ExtTreeMap α β compare) : Nat := (t.toList.map fun p => f p.2).sum

variable {f : β → Nat}

theorem weight_insert (k : α) (v : β) :
    weight f (t.insert k v) = f v + weight f (t.erase k) := by
  unfold weight
  rw [((toList_insert_perm k v).map _).sum_eq, List.map_cons, List.sum_cons]

omit [LawfulEqOrd α] in
theorem weight_filter_le (p : α → β → Bool) : weight f (t.filter p) ≤ weight f t := by
  unfold weight
  rw [toList_filter]
  exact (List.Sublist.map _ List.filter_sublist).sum_le_sum fun _ _ => Nat.zero_le _

theorem weight_erase_le [DecidableEq α] (k : α) : weight f (t.erase k) ≤ weight f t := by
  unfold weight
  rw [((toList_erase_perm k).map _).sum_eq]
  exact (List.Sublist.map _ List.filter_sublist).sum_le_sum fun _ _ => Nat.zero_le _

theorem weight_insertMany_le [DecidableEq α] (l : List (α × β)) :
    weight f (t.insertMany l) ≤ weight f t + (l.map fun p => f p.2).sum := by
  induction l generalizing t with
  | nil => simp
  | cons p l ih =>
    obtain ⟨k, v⟩ := p
    rw [insertMany_cons, List.map_cons, List.sum_cons]
    have hrest := ih (t := t.insert k v)
    have hhead := weight_erase_le (t := t) (f := f) k
    rw [weight_insert] at hrest
    show _ ≤ _ + (f v + _)
    omega

/-- A map made of a list is at most as heavy as the list. -/
theorem weight_ofList_le [DecidableEq α] (l : List (α × β)) :
    weight f (ofList l compare) ≤ (l.map fun p => f p.2).sum := by
  rw [ofList_eq_insertMany_empty]
  have h := weight_insertMany_le (f := f) (t := (∅ : ExtTreeMap α β compare)) l
  have hempty : weight f (∅ : ExtTreeMap α β compare) = 0 := rfl
  omega

/-- The weight depends on the weights of the entries only. -/
theorem weight_congr {f' : γ → Nat} {u : ExtTreeMap α γ compare}
    (h : ∀ k : α, (t[k]?).map f = (u[k]?).map f') : weight f t = weight f' u := by
  have heq : (t.map fun _ v => f v) = u.map fun _ w => f' w := by
    apply ext_getElem?
    intro k
    rw [getElem?_map, getElem?_map]
    exact h k
  have hsum := congrArg (fun w : ExtTreeMap α Nat compare => (w.toList.map Prod.snd).sum) heq
  simp only [toList_map, List.map_map] at hsum
  exact hsum

/-- Two maps of one size, the keys of one of them among those of the other. -/
theorem keys_perm_of_subset {u : ExtTreeMap α γ compare} (hsize : t.size = u.size)
    (h : ∀ k ∈ t.keys, k ∈ u) : t.keys.Perm u.keys := by
  apply (List.subperm_of_subset nodup_keys fun k hk => mem_keys.mpr (h k hk)).perm_of_length_le
  rw [length_keys, length_keys, hsize]

/-- A map on the values that makes none of them heavier. -/
theorem weight_map_le {f' : γ → Nat} {g : α → β → γ}
    (h : ∀ (k : α) v, t[k]? = some v → f' (g k v) ≤ f v) : weight f' (t.map g) ≤ weight f t := by
  unfold weight
  rw [toList_map, List.map_map]
  apply List.sum_le_sum
  rintro ⟨k, v⟩ hp
  exact h k v (mem_toList_iff_getElem?_eq_some.mp hp)

end Std.ExtTreeMap

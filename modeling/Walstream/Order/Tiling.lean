import Mathlib.Data.List.Basic
import Mathlib.Data.List.Nodup
import Mathlib.Order.Interval.Set.Defs
import Mathlib.Tactic.Common
import Mathlib.Tactic.Linarith

/-!
# Tilings of an integer range

`Tiles lo hi xs a b`: the half-open intervals `[lo x, hi x)` of the entries of `xs` are
not empty and lie end to end, from `a` to `b`. This is the arithmetic of everything that
is indexed by offsets: segments of a log, pages of an index over it, the retained part
of both.
-/

namespace Tiling

variable {α : Type*} (lo hi : α → Int)

/-- The intervals of the entries lie end to end from `a` to `b`. -/
def Tiles : List α → Int → Int → Prop
  | [], a, b => a = b
  | x :: xs, a, b => lo x = a ∧ a < hi x ∧ Tiles xs (hi x) b

variable {lo hi} {xs ys : List α} {x y : α} {a b c : Int}

@[simp] theorem tiles_nil : Tiles lo hi [] a b ↔ a = b := Iff.rfl

@[simp] theorem tiles_cons :
    Tiles lo hi (x :: xs) a b ↔ lo x = a ∧ a < hi x ∧ Tiles lo hi xs (hi x) b := Iff.rfl

theorem tiles_append :
    Tiles lo hi (xs ++ ys) a c ↔ ∃ b, Tiles lo hi xs a b ∧ Tiles lo hi ys b c := by
  induction xs generalizing a with
  | nil => simp
  | cons x xs ih =>
    simp only [List.cons_append, tiles_cons, ih]
    constructor
    · rintro ⟨hlo, hlt, b, hxs, hys⟩
      exact ⟨b, ⟨hlo, hlt, hxs⟩, hys⟩
    · rintro ⟨b, ⟨hlo, hlt, hxs⟩, hys⟩
      exact ⟨hlo, hlt, b, hxs, hys⟩

theorem Tiles.append (h : Tiles lo hi xs a b) (h' : Tiles lo hi ys b c) :
    Tiles lo hi (xs ++ ys) a c := tiles_append.mpr ⟨b, h, h'⟩

theorem Tiles.length_le (h : Tiles lo hi xs a b) : (xs.length : Int) ≤ b - a := by
  induction xs generalizing a with
  | nil => simp_all
  | cons x xs ih =>
    obtain ⟨hlo, hlt, hxs⟩ := h
    have := ih hxs
    push_cast [List.length_cons]
    omega

theorem Tiles.le (h : Tiles lo hi xs a b) : a ≤ b := by
  have := h.length_le
  omega

/-- Where a tiling ends is determined by its entries. -/
theorem Tiles.end_unique (h : Tiles lo hi xs a b) (h' : Tiles lo hi xs a c) : b = c := by
  induction xs generalizing a with
  | nil => exact (tiles_nil.mp h).symm.trans (tiles_nil.mp h')
  | cons x xs ih => exact ih h.2.2 h'.2.2

theorem Tiles.start_unique (h : Tiles lo hi xs a c) (h' : Tiles lo hi xs b c) : a = b := by
  cases xs with
  | nil => exact Eq.trans h (Eq.symm h')
  | cons x xs => exact h.1.symm.trans h'.1

theorem Tiles.mem (h : Tiles lo hi xs a b) (hx : x ∈ xs) : a ≤ lo x ∧ lo x < hi x ∧ hi x ≤ b := by
  induction xs generalizing a with
  | nil => simp at hx
  | cons y xs ih =>
    obtain ⟨hlo, hlt, hxs⟩ := h
    rcases List.mem_cons.mp hx with rfl | hx
    · exact ⟨hlo.ge, hlo ▸ hlt, hxs.le⟩
    · obtain ⟨h₁, h₂, h₃⟩ := ih hxs hx
      exact ⟨by omega, h₂, h₃⟩

theorem Tiles.head (h : Tiles lo hi (x :: xs) a b) : lo x = a := h.1

theorem Tiles.getLast (h : Tiles lo hi (xs ++ [x]) a b) : hi x = b := by
  obtain ⟨_, _, _, _, h⟩ := tiles_append.mp h
  exact h

/-- Every integer of the range lies in the interval of exactly one entry. -/
theorem Tiles.existsUnique (h : Tiles lo hi xs a b) {n : Int} (ha : a ≤ n) (hb : n < b) :
    ∃! x, x ∈ xs ∧ lo x ≤ n ∧ n < hi x := by
  induction xs generalizing a with
  | nil =>
    have := tiles_nil.mp h
    omega
  | cons y xs ih =>
    obtain ⟨hlo, hlt, hxs⟩ := h
    by_cases hn : n < hi y
    · refine ⟨y, ⟨by simp, by omega, hn⟩, ?_⟩
      rintro z ⟨hz, hlz, hnz⟩
      rcases List.mem_cons.mp hz with rfl | hz
      · rfl
      · have := (hxs.mem hz).1
        omega
    · obtain ⟨x, ⟨hx, hlx, hnx⟩, huniq⟩ := ih hxs (by omega)
      refine ⟨x, ⟨by simp [hx], hlx, hnx⟩, ?_⟩
      rintro z ⟨hz, hlz, hnz⟩
      rcases List.mem_cons.mp hz with rfl | hz
      · omega
      · exact huniq z ⟨hz, hlz, hnz⟩

/-- The entries from position `k` on tile the rest of the range. -/
theorem Tiles.drop (h : Tiles lo hi xs a b) (k : Nat) :
    Tiles lo hi (xs.drop k) ((xs[k]?.map lo).getD b) b := by
  induction xs generalizing a k with
  | nil => simp
  | cons x xs ih =>
    obtain ⟨hlo, hlt, hxs⟩ := h
    cases k with
    | zero => simpa [hlo] using ⟨hlt, hxs⟩
    | succ k => simpa using ih hxs k

/-- The same entries tile the range from the start of any later one. -/
theorem Tiles.start_le (h : Tiles lo hi xs a b) (k : Nat) : a ≤ (xs[k]?.map lo).getD b := by
  rcases hk : xs[k]? with _ | x
  · simpa using h.le
  · simpa using (h.mem (List.mem_of_getElem? hk)).1

/-- Entries that end at or before `n` form a prefix: after it all entries end later. -/
theorem Tiles.filter_sublist (h : Tiles lo hi xs a b) (n : Int) :
    ∃ ys zs, xs = ys ++ zs ∧ (∀ y ∈ ys, hi y ≤ n) ∧ (∀ z ∈ zs, n < hi z) := by
  induction xs generalizing a with
  | nil => exact ⟨[], [], rfl, by simp, by simp⟩
  | cons x xs ih =>
    obtain ⟨hlo, hlt, hxs⟩ := h
    by_cases hn : hi x ≤ n
    · obtain ⟨ys, zs, rfl, hys, hzs⟩ := ih hxs
      exact ⟨x :: ys, zs, rfl, by simpa [hn] using hys, hzs⟩
    · refine ⟨[], x :: xs, rfl, by simp, ?_⟩
      intro z hz
      rcases List.mem_cons.mp hz with rfl | hz
      · omega
      · have := hxs.mem hz
        omega

end Tiling

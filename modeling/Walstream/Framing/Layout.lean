import Mathlib.Algebra.Order.Group.Nat
import Mathlib.Tactic.Common

/-!
# Layouts of length-prefixed binary data

A layout says which byte strings are complete encodings, and how many collection items
such an encoding declares over all nesting levels. It says nothing about how a reader
walks the bytes.

- `Layout`: fixed fields, length-prefixed fields, counted collections, ordered tags.
- `Layout.Encodes`: the byte strings of a layout, each with its number of items.
- `Layout.least`: no encoding is shorter.
-/

namespace Framing

abbrev Bytes := List UInt8

/-! ## Numbers -/

/-- The number that the bytes spell, the first byte being the most significant one. -/
def bigEndian (bytes : Bytes) : Nat := bytes.foldl (fun n b => n * 256 + b.toNat) 0

/-- Two's complement, at the width of the bytes. -/
def signed (bytes : Bytes) : Int := (BitVec.ofNat (8 * bytes.length) (bigEndian bytes)).toInt

/-- Little-endian groups of seven bits; all bytes but the last one have the top bit set. -/
def Groups : Bytes → Nat → Prop
  | [], _ => False
  | [b], value => b.toNat < 128 ∧ value = b.toNat
  | b :: rest, value => 128 ≤ b.toNat ∧ ∃ high, Groups rest high ∧ value = b.toNat % 128 + 128 * high

/-- An unsigned number of 32 bits in at most five groups. -/
def Varint (bytes : Bytes) (value : Nat) : Prop :=
  Groups bytes value ∧ bytes.length ≤ 5 ∧ value < 2 ^ 32

theorem Groups.pos {bytes : Bytes} {value : Nat} (h : Groups bytes value) : 0 < bytes.length := by
  cases bytes with
  | nil => exact h.elim
  | cons b rest => simp

theorem Varint.pos {bytes : Bytes} {value : Nat} (h : Varint bytes value) : 0 < bytes.length :=
  h.1.pos

/-! ## Collections -/

/-- `count` encodings one after another; `n` is the sum of their items. -/
def Repeats (P : Bytes → Nat → Prop) : (count : Nat) → Bytes → Nat → Prop
  | 0, bytes, n => bytes = [] ∧ n = 0
  | count + 1, bytes, n => ∃ first rest m k, bytes = first ++ rest ∧ n = m + k ∧
      P first m ∧ Repeats P count rest k

/-- `count` tagged fields: a tag, a size and as many bytes, the tags strictly increasing
from `previous` on. -/
def Tags : (count : Nat) → (previous : Option Nat) → Bytes → Prop
  | 0, _, bytes => bytes = []
  | count + 1, previous, bytes => ∃ head size payload rest tag,
      bytes = head ++ (size ++ (payload ++ rest)) ∧ Varint head tag ∧ Varint size payload.length ∧
      (∀ p ∈ previous, p < tag) ∧ Tags count (some tag) rest

theorem Repeats.length_ge {P : Bytes → Nat → Prop} {least : Nat}
    (hP : ∀ b n, P b n → least ≤ b.length) {count : Nat} {bytes : Bytes} {n : Nat}
    (h : Repeats P count bytes n) : count * least ≤ bytes.length := by
  induction count generalizing bytes n with
  | zero => simp
  | succ count ih =>
    obtain ⟨first, rest, m, k, rfl, -, hfirst, hrest⟩ := h
    have := hP first m hfirst
    have := ih hrest
    rw [List.length_append, Nat.succ_mul]
    omega

theorem Tags.length_ge {count : Nat} {previous : Option Nat} {bytes : Bytes}
    (h : Tags count previous bytes) : count * 2 ≤ bytes.length := by
  induction count generalizing previous bytes with
  | zero => simp
  | succ count ih =>
    obtain ⟨head, size, payload, rest, tag, rfl, hhead, hsize, -, hrest⟩ := h
    have := hhead.pos
    have := hsize.pos
    have := ih hrest
    simp only [List.length_append]
    omega

/-! ## Layouts -/

inductive Layout where
  /-- No bytes. -/
  | empty
  /-- Any `width` bytes. -/
  | fixed (width : Nat)
  /-- The signed number `value` in `width` bytes. -/
  | constant (width : Nat) (value : Int)
  /-- A signed length in `width` bytes and as many bytes; the length −1 is a null. -/
  | sized (width : Nat) (nullable : Bool)
  /-- An unsigned number, one more than the length, and the bytes; the number 0 is a null. -/
  | compact (nullable : Bool)
  /-- A signed count in four bytes and as many items; the count −1 is a null. -/
  | array (nullable : Bool) (item : Layout)
  /-- An unsigned count and as many tagged fields. -/
  | tags
  /-- One after the other. -/
  | seq (first second : Layout)

namespace Layout

/-- The fields of a record one after another. -/
def record (fields : List Layout) : Layout := fields.foldr seq empty

/-- `bytes` is a complete encoding that declares `items` collection items. -/
def Encodes : Layout → (bytes : Bytes) → (items : Nat) → Prop
  | empty, bytes, items => bytes = [] ∧ items = 0
  | fixed width, bytes, items => bytes.length = width ∧ items = 0
  | constant width value, bytes, items => bytes.length = width ∧ signed bytes = value ∧ items = 0
  | sized width nullable, bytes, items => ∃ head body, bytes = head ++ body ∧
      head.length = width ∧ items = 0 ∧
      (signed head = body.length ∨ (nullable = true ∧ signed head = -1 ∧ body = []))
  | compact nullable, bytes, items => ∃ head body, bytes = head ++ body ∧ items = 0 ∧
      (Varint head (body.length + 1) ∨ (nullable = true ∧ Varint head 0 ∧ body = []))
  | array nullable item, bytes, items => ∃ head body, bytes = head ++ body ∧ head.length = 4 ∧
      ((∃ count n : Nat, signed head = count ∧ Repeats item.Encodes count body n ∧ items = count + n) ∨
        (nullable = true ∧ signed head = -1 ∧ body = [] ∧ items = 0))
  | tags, bytes, items => ∃ head body, bytes = head ++ body ∧ Varint head items ∧ Tags items none body
  | seq first second, bytes, items => ∃ b₁ b₂ m n, bytes = b₁ ++ b₂ ∧ items = m + n ∧
      first.Encodes b₁ m ∧ second.Encodes b₂ n

/-- The width of adjacent fixed fields. -/
def total : (widths : List Nat) → Nat
  | [] => 0
  | width :: widths => width + total widths

/-- The shortest that an encoding can be. -/
def least : Layout → Nat
  | empty => 0
  | fixed width => width
  | constant width _ => width
  | sized width _ => width
  | compact _ => 1
  | array _ _ => 4
  | tags => 1
  | seq first second => first.least + second.least

theorem Encodes.length_ge {layout : Layout} {bytes : Bytes} {items : Nat}
    (h : layout.Encodes bytes items) : layout.least ≤ bytes.length := by
  -- over the layout: the least lengths of its parts add up
  induction layout generalizing bytes items with
  | empty => exact Nat.zero_le _
  | fixed width => exact h.1.ge
  | constant width value => exact h.1.ge
  | sized width nullable =>
    obtain ⟨head, body, rfl, hhead, -⟩ := h
    simp [least, hhead]
  | compact nullable =>
    obtain ⟨head, body, rfl, -, hhead | ⟨-, hhead, -⟩⟩ := h <;>
    · have := hhead.pos
      rw [least, List.length_append]
      omega
  | array nullable item _ =>
    obtain ⟨head, body, rfl, hhead, -⟩ := h
    simp [least, hhead]
  | tags =>
    obtain ⟨head, body, rfl, hhead, -⟩ := h
    have := hhead.pos
    rw [least, List.length_append]
    omega
  | seq first second ih₁ ih₂ =>
    obtain ⟨b₁, b₂, m, n, rfl, -, h₁, h₂⟩ := h
    rw [least, List.length_append]
    exact Nat.add_le_add (ih₁ h₁) (ih₂ h₂)

theorem repeats_fixed {width count : Nat} {bytes : Bytes} {items : Nat} :
    Repeats (fixed width).Encodes count bytes items ↔ bytes.length = count * width ∧ items = 0 := by
  induction count generalizing bytes items with
  | zero => simp [Repeats]
  | succ count ih =>
    rw [Repeats, Nat.succ_mul]
    constructor
    · rintro ⟨first, rest, m, k, rfl, rfl, ⟨hfirst, rfl⟩, hrest⟩
      obtain ⟨hrest, rfl⟩ := ih.mp hrest
      rw [List.length_append]
      omega
    · rintro ⟨hlength, rfl⟩
      refine ⟨bytes.take width, bytes.drop width, 0, 0, (List.take_append_drop ..).symm, rfl,
        ⟨?_, rfl⟩, ih.mpr ⟨?_, rfl⟩⟩
      · rw [List.length_take]
        omega
      · rw [List.length_drop]
        omega

theorem encodes_record_nil {bytes : Bytes} {items : Nat} :
    (record []).Encodes bytes items ↔ bytes = [] ∧ items = 0 := Iff.rfl

theorem encodes_record_cons {field : Layout} {fields : List Layout} {bytes : Bytes} {items : Nat} :
    (record (field :: fields)).Encodes bytes items ↔ ∃ b₁ b₂ m n, bytes = b₁ ++ b₂ ∧
      items = m + n ∧ field.Encodes b₁ m ∧ (record fields).Encodes b₂ n := Iff.rfl

theorem encodes_record_single {field : Layout} {bytes : Bytes} {items : Nat} :
    (record [field]).Encodes bytes items ↔ field.Encodes bytes items := by
  constructor
  · rintro ⟨b₁, b₂, m, n, rfl, rfl, h, rfl, rfl⟩
    simpa using h
  · intro h
    exact ⟨bytes, [], items, 0, by simp, rfl, h, rfl, rfl⟩

/-- The fields of two records one after another. -/
theorem encodes_record_append {xs ys : List Layout} {bytes : Bytes} {items : Nat} :
    (record (xs ++ ys)).Encodes bytes items ↔
      (seq (record xs) (record ys)).Encodes bytes items := by
  induction xs generalizing bytes items with
  | nil =>
    constructor
    · intro h
      exact ⟨[], bytes, 0, items, rfl, by simp, ⟨rfl, rfl⟩, h⟩
    · rintro ⟨b₁, b₂, m, n, rfl, rfl, ⟨rfl, rfl⟩, h⟩
      simpa using h
  | cons x xs ih =>
    rw [List.cons_append, encodes_record_cons]
    constructor
    · rintro ⟨b₁, b₂, m, n, rfl, rfl, hx, hrest⟩
      obtain ⟨b₃, b₄, k, l, rfl, rfl, hxs, hys⟩ := ih.mp hrest
      refine ⟨b₁ ++ b₃, b₄, m + k, l, by simp, by omega, ?_, hys⟩
      exact ⟨b₁, b₃, m, k, rfl, rfl, hx, hxs⟩
    · rintro ⟨b₁, b₂, m, n, rfl, rfl, ⟨b₃, b₄, k, l, rfl, rfl, hx, hxs⟩, hys⟩
      refine ⟨b₃, b₄ ++ b₂, k, l + n, by simp, by omega, hx, ih.mpr ?_⟩
      exact ⟨b₄, b₂, l, n, rfl, rfl, hxs, hys⟩

/-- Adjacent fixed fields are as good as one field of their total width. -/
theorem encodes_fixed {widths : List Nat} {bytes : Bytes} {items : Nat} :
    (record (widths.map fixed)).Encodes bytes items ↔ bytes.length = total widths ∧ items = 0 := by
  induction widths generalizing bytes items with
  | nil => simp [encodes_record_nil, total]
  | cons width widths ih =>
    rw [List.map_cons, encodes_record_cons]
    constructor
    · rintro ⟨b₁, b₂, m, n, rfl, rfl, ⟨rfl, rfl⟩, h⟩
      obtain ⟨hlength, rfl⟩ := ih.mp h
      simp [hlength, total]
    · rintro ⟨hlength, rfl⟩
      rw [total] at hlength
      refine ⟨bytes.take width, bytes.drop width, 0, 0, (List.take_append_drop ..).symm, rfl,
        ⟨?_, rfl⟩, ih.mpr ⟨?_, rfl⟩⟩
      · rw [List.length_take]
        omega
      · rw [List.length_drop]
        omega

theorem least_record_append (xs ys : List Layout) :
    (record (xs ++ ys)).least = (record xs).least + (record ys).least := by
  induction xs with
  | nil => exact (Nat.zero_add _).symm
  | cons x xs ih =>
    show x.least + (record (xs ++ ys)).least = x.least + (record xs).least + _
    rw [ih, Nat.add_assoc]

theorem least_fixed (widths : List Nat) : (record (widths.map fixed)).least = total widths := by
  induction widths with
  | nil => rfl
  | cons width widths ih =>
    show width + (record (widths.map fixed)).least = _
    rw [ih]
    rfl

end Layout

end Framing

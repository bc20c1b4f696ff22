import Walstream.Framing.Layout
import Mathlib.Tactic.Ring

/-!
# Numbers in groups of seven bits

A number is written as groups of seven bits, the least significant group first; signed numbers
are numbered by zig-zag first. A group ends where its last byte is, so that what follows it
plays no part.

- `Groups.unique`: at most one group starts a byte string.
- `groups`: the shortest group of a number.
- `zigzag`, `unzigzag`: the numbering of the integers.
- `VarintReader`: what it means to read such numbers, up to a length and a width.
-/

namespace Framing

/-! ## Groups -/

/-- At most one group starts a byte string. -/
theorem Groups.unique {group group' rest rest' : Bytes} {n n' : Nat} (h : Groups group n)
    (h' : Groups group' n') (heq : group ++ rest = group' ++ rest') :
    group = group' ∧ n = n' ∧ rest = rest' := by
  induction group generalizing group' n n' with
  | nil => exact h.elim
  | cons b group ih =>
    cases group' with
    | nil => exact h'.elim
    | cons b' group' =>
      obtain ⟨rfl, htail⟩ : b = b' ∧ group ++ rest = group' ++ rest' := by simpa using heq
      -- the first byte tells whether the group goes on
      cases group with
      | nil =>
        cases group' with
        | nil =>
          obtain ⟨-, rfl⟩ := h
          obtain ⟨-, rfl⟩ := h'
          exact ⟨rfl, rfl, htail⟩
        | cons c group' => exact absurd h.1 (Nat.not_lt.mpr h'.1)
      | cons c group =>
        cases group' with
        | nil => exact absurd h'.1 (Nat.not_lt.mpr h.1)
        | cons c' group' =>
          obtain ⟨-, high, hhigh, rfl⟩ := h
          obtain ⟨-, high', hhigh', rfl⟩ := h'
          obtain ⟨hgroup, rfl, hrest⟩ := ih hhigh hhigh' htail
          exact ⟨by rw [hgroup], rfl, hrest⟩

/-- The last byte of a group has a clear top bit. -/
theorem Groups.last {group : Bytes} {n : Nat} (h : Groups group n) :
    ∃ b ∈ group, b.toNat < 128 := by
  induction group generalizing n with
  | nil => exact h.elim
  | cons b group ih =>
    cases group with
    | nil => exact ⟨b, by simp, h.1⟩
    | cons c group =>
      obtain ⟨-, high, hhigh, -⟩ := h
      obtain ⟨last, hlast, hsmall⟩ := ih hhigh
      exact ⟨last, List.mem_cons_of_mem _ hlast, hsmall⟩

/-- The shortest group of a number. -/
def groups (n : Nat) : Bytes :=
  if n < 128 then [UInt8.ofNat n] else UInt8.ofNat (n % 128 + 128) :: groups (n / 128)
termination_by n
decreasing_by omega

theorem toNat_ofNat_of_lt {n : Nat} (h : n < 256) : (UInt8.ofNat n).toNat = n := by
  rw [UInt8.toNat_ofNat']
  exact Nat.mod_eq_of_lt h

theorem groups_spec (n : Nat) : Groups (groups n) n := by
  induction n using Nat.strongRecOn with
  | ind n ih =>
    rw [groups]
    split
    · next hsmall =>
      have hbyte := toNat_ofNat_of_lt (by omega : n < 256)
      exact ⟨by omega, hbyte.symm⟩
    · next hlarge =>
      have hbyte := toNat_ofNat_of_lt (by omega : n % 128 + 128 < 256)
      have hrest := ih (n / 128) (by omega)
      cases hgroups : groups (n / 128) with
      | nil =>
        rw [hgroups] at hrest
        exact hrest.elim
      | cons b rest =>
        rw [hgroups] at hrest
        refine ⟨by omega, n / 128, hrest, ?_⟩
        rw [hbyte]
        omega

/-- A number of this many groups of bits needs no more of them. -/
theorem length_groups_le {n count : Nat} (h : n < 2 ^ (7 * (count + 1))) :
    (groups n).length ≤ count + 1 := by
  induction count generalizing n with
  | zero =>
    rw [groups, if_pos (by omega)]
    simp
  | succ count ih =>
    rw [groups]
    split
    · simp
    · have hpow : 2 ^ (7 * (count + 1 + 1)) = 2 ^ (7 * (count + 1)) * 128 := by ring
      have hrest := ih (n := n / 128) (by omega)
      rw [List.length_cons]
      omega

/-! ## Reading byte by byte -/

/-- The next seven bits go above the bits that are there. -/
theorem or_shiftLeft {value payload index : Nat} (h : value < 2 ^ (7 * index)) :
    value ||| (payload <<< (index * 7)) = value + 2 ^ (7 * index) * payload := by
  rw [Nat.mul_comm index, Nat.shiftLeft_eq, Nat.mul_comm payload, Nat.or_comm,
    ← Nat.two_pow_add_eq_or_of_lt h, Nat.add_comm]

/-- After `index` bytes: the rest of a group of at most `fuel` bytes, whose number goes above the
bits that are there, to a number of `width` bits. -/
def RestOfGroup (width fuel index value a : Nat) (bytes : Bytes) : Prop :=
  bytes.length ≤ fuel ∧ a < 2 ^ width ∧
    ∃ high, Groups bytes high ∧ a = value + 2 ^ (7 * index) * high

/-- One more byte; only the last one that is allowed can have too many bits. -/
theorem restOfGroup_cons {width last fuel index value a : Nat} (hfuel : fuel + index = last)
    (hwidth : 7 * last < width ∧ width ≤ 7 * (last + 1)) (hvalue : value < 2 ^ (7 * index))
    (b : UInt8) (rest : Bytes) :
    RestOfGroup width (fuel + 1) index value a (b :: rest) ↔
      ¬ (index = last ∧ 2 ^ (width - 7 * last) ≤ b.toNat % 128) ∧
      (if b.toNat < 128 then a = value + 2 ^ (7 * index) * (b.toNat % 128) ∧ rest = []
      else RestOfGroup width fuel (index + 1) (value + 2 ^ (7 * index) * (b.toNat % 128)) a rest) := by
  -- what a byte adds, and how many bits are left for the last one
  have hpow : 2 ^ (7 * (index + 1)) = 2 ^ (7 * index) * 128 := by ring
  have htop : 2 ^ width = 2 ^ (7 * last) * 2 ^ (width - 7 * last) := by
    rw [← pow_add]
    congr 1
    omega
  -- the rest of the group decides whether the byte is the last one
  constructor
  · rintro ⟨hlength, hmax, high, hgroups, rfl⟩
    rcases rest with _ | ⟨b', rest⟩
    · -- the last byte
      obtain ⟨hsmall, rfl⟩ := hgroups
      rw [Nat.mod_eq_of_lt hsmall, if_pos hsmall]
      refine ⟨?_, rfl, rfl⟩
      rintro ⟨rfl, hbig⟩
      have := Nat.mul_le_mul_left (2 ^ (7 * index)) hbig
      omega
    -- the byte is followed by others, so that its high bit is set
    · obtain ⟨hlarge, high, hgroups, rfl⟩ := hgroups
      rw [if_neg (by omega)]
      refine ⟨?_, ?_, hmax, high, hgroups, ?_⟩
      · rintro ⟨rfl, -⟩
        simp only [List.length_cons] at hlength
        omega
      · simpa using hlength
      · rw [hpow, Nat.mul_add, Nat.mul_assoc, Nat.add_assoc]
  · rintro ⟨hfits, hrest⟩
    split at hrest
    -- the byte ends the group, and the value is within its width
    · next hsmall =>
      obtain ⟨rfl, rfl⟩ := hrest
      refine ⟨by simp, ?_, b.toNat, ⟨hsmall, rfl⟩, by rw [Nat.mod_eq_of_lt hsmall]⟩
      by_cases hlast : index = last
      -- the last byte that is allowed has few bits left
      · subst hlast
        have hbits : b.toNat % 128 + 1 ≤ 2 ^ (width - 7 * index) := by omega
        have := Nat.mul_le_mul_left (2 ^ (7 * index)) hbits
        rw [Nat.mul_add] at this
        omega
      · have hroom : 2 ^ (7 * (index + 1)) ≤ 2 ^ width :=
          Nat.pow_le_pow_right (by decide) (by omega)
        have := Nat.mul_le_mul_left (2 ^ (7 * index)) (show b.toNat % 128 ≤ 127 by omega)
        omega
    -- the others are the group of the high part
    · next hlarge =>
      obtain ⟨hlength, hmax, high, hgroups, rfl⟩ := hrest
      refine ⟨by simpa using hlength, hmax, b.toNat % 128 + 128 * high, ?_, ?_⟩
      · cases rest with
        | nil => exact hgroups.elim
        | cons b' rest => exact ⟨by omega, high, hgroups, rfl⟩
      · rw [hpow, Nat.mul_add, Nat.mul_assoc, Nat.add_assoc]

theorem restOfGroup_zero {width fuel a : Nat} {bytes : Bytes} :
    RestOfGroup width fuel 0 0 a bytes ↔ bytes.length ≤ fuel ∧ a < 2 ^ width ∧ Groups bytes a := by
  constructor
  · rintro ⟨hlength, hmax, high, hgroups, rfl⟩
    have hhigh : 0 + 2 ^ (7 * 0) * high = high := by omega
    rw [hhigh] at hmax ⊢
    exact ⟨hlength, hmax, hgroups⟩
  · rintro ⟨hlength, hmax, hgroups⟩
    exact ⟨hlength, hmax, a, hgroups, by omega⟩

/-- No bytes are the rest of a group. -/
theorem restOfGroup_nil {width fuel index value a : Nat} :
    ¬ RestOfGroup width fuel index value a [] := by
  rintro ⟨-, -, high, hgroups, -⟩
  exact hgroups

/-- The bits that are there after one more byte. -/
theorem value_lt {index value : Nat} (byte : Nat) (h : value < 2 ^ (7 * index)) :
    value + 2 ^ (7 * index) * (byte % 128) < 2 ^ (7 * (index + 1)) := by
  have hpow : 2 ^ (7 * (index + 1)) = 2 ^ (7 * index) * 128 := by ring
  have := Nat.mul_le_mul_left (2 ^ (7 * index)) (show byte % 128 ≤ 127 by omega)
  omega

/-! ## Zig-zag -/

/-- The number of an integer: 0, −1, 1, −2, 2 and so on. -/
def zigzag (v : Int) : Nat := if 0 ≤ v then (2 * v).toNat else (-2 * v - 1).toNat

/-- The integer of a number. -/
def unzigzag (n : Nat) : Int := if n % 2 = 0 then (n / 2 : Nat) else -(n / 2 : Nat) - 1

theorem unzigzag_zigzag (v : Int) : unzigzag (zigzag v) = v := by
  unfold zigzag unzigzag
  split <;> split <;> omega

theorem zigzag_lt {v : Int} {half : Nat} (h : -half ≤ v ∧ v < half) : zigzag v < 2 * half := by
  unfold zigzag
  split <;> omega

theorem unzigzag_mem {n half : Nat} (h : n < 2 * half) : -half ≤ unzigzag n ∧ unzigzag n < half := by
  unfold unzigzag
  split <;> omega

/-! ## Readers -/

/-- `read` reads the numbers of at most `bytes` bytes and `width` bits, and nothing else; `push`
writes them. -/
structure VarintReader {α ε : Type} (read : Bytes → Except ε (α × Bytes)) (bytes width : Nat)
    (decode : Nat → α) (push : α → Bytes) (InRange : α → Prop) : Prop where
  /-- Reading inverts writing, whatever follows. -/
  inverts : ∀ a rest, InRange a → read (push a ++ rest) = .ok (a, rest)
  /-- What is read is a group within the limits, shortest or padded, and its number is the
  decoding of what is returned. -/
  reads : ∀ input a rest, read input = .ok (a, rest) ↔ ∃ group n, input = group ++ rest ∧
    Groups group n ∧ 1 ≤ group.length ∧ group.length ≤ bytes ∧ n < 2 ^ width ∧ a = decode n
  inRange : ∀ input a rest, read input = .ok (a, rest) → InRange a
  truncated : ∀ input, (∀ b ∈ input, 128 ≤ b.toNat) → ∃ e, read input = .error e
  overlong : ∀ group n rest, Groups group n → bytes < group.length →
    ∃ e, read (group ++ rest) = .error e
  overflowing : ∀ group n rest, Groups group n → 2 ^ width ≤ n →
    ∃ e, read (group ++ rest) = .error e

section Readers

variable {α ε : Type} {read : Bytes → Except ε (α × Bytes)} {bytes width : Nat}
  {decode : Nat → α} {push : α → Bytes} {InRange : α → Prop}

/-- A reader is one as soon as it reads the right groups and the right numbers are written. -/
theorem varintReader_of_reads
    (hreads : ∀ input a rest, read input = .ok (a, rest) ↔ ∃ group, input = group ++ rest ∧
      ∃ n, Groups group n ∧ group.length ≤ bytes ∧ n < 2 ^ width ∧ a = decode n)
    (hpush : ∀ a, InRange a → ∃ n, push a = groups n ∧ (groups n).length ≤ bytes ∧
      n < 2 ^ width ∧ a = decode n)
    (hdecode : ∀ n, n < 2 ^ width → InRange (decode n)) :
    VarintReader read bytes width decode push InRange := by
  -- what is not read is an error
  have hfails : ∀ input, (∀ a rest, read input ≠ .ok (a, rest)) → ∃ e, read input = .error e := by
    intro input hne
    cases hread : read input with
    | ok r => exact absurd hread (hne r.1 r.2)
    | error e => exact ⟨e, rfl⟩
  refine ⟨?_, ?_, ?_, ?_, ?_, ?_⟩
  · intro a rest ha
    obtain ⟨n, hn, hlength, hwidth, hdecoded⟩ := hpush a ha
    rw [hn, hreads]
    exact ⟨groups n, rfl, n, groups_spec n, hlength, hwidth, hdecoded⟩
  · intro input a rest
    rw [hreads]
    constructor
    · rintro ⟨group, hinput, n, hgroup, hlength, hwidth, hdecoded⟩
      exact ⟨group, n, hinput, hgroup, hgroup.pos, hlength, hwidth, hdecoded⟩
    · rintro ⟨group, n, hinput, hgroup, -, hlength, hwidth, hdecoded⟩
      exact ⟨group, hinput, n, hgroup, hlength, hwidth, hdecoded⟩
  · intro input a rest hread
    obtain ⟨group, -, n, -, -, hwidth, rfl⟩ := (hreads input a rest).mp hread
    exact hdecode n hwidth
  · intro input hlarge
    apply hfails
    intro a rest hread
    obtain ⟨group, rfl, n, hgroup, -⟩ := (hreads input a rest).mp hread
    obtain ⟨b, hb, hsmall⟩ := hgroup.last
    have := hlarge b (List.mem_append_left _ hb)
    omega
  · intro group n rest hgroup hlong
    apply hfails
    intro a rest' hread
    obtain ⟨group', heq, n', hgroup', hlength, -⟩ := (hreads _ a rest').mp hread
    obtain ⟨rfl, -, -⟩ := hgroup.unique hgroup' heq
    omega
  · intro group n rest hgroup hlarge
    apply hfails
    intro a rest' hread
    obtain ⟨group', heq, n', hgroup', -, hwidth, -⟩ := (hreads _ a rest').mp hread
    obtain ⟨-, rfl, -⟩ := hgroup.unique hgroup' heq
    omega

end Readers

end Framing

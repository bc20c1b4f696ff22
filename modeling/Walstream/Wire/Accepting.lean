import Walstream.Framing.Varint
import Walstream.Wire.Frame

/-!
# What the frame validator accepts

Each validator of `wire.rs` walks exactly the encodings of a layout: it succeeds on them,
as long as the item budget lasts, and on nothing else. The layouts are those of the Kafka
protocol, field by field.
-/

namespace Walstream.Wire

open Framing

/-! ## Running a reader -/

/-- Runs a method on a cursor. -/
def run {α : Type} (v : Reading α) (c : Cursor) : Except WireError α × Cursor := v.run.run c

section Running

variable {α β : Type} {c c' : Cursor}

@[simp] theorem run_pure (a : α) : run (pure a) c = (.ok a, c) := rfl

@[simp] theorem run_throw (e : WireError) : run (throw e : Reading α) c = (.error e, c) := rfl

@[simp] theorem run_tick : run tick c = (.ok (), { c with itemSteps := c.itemSteps + 1 }) := rfl

theorem run_bind (v : Reading α) (f : α → Reading β) :
    run (v >>= f) c = match run v c with
      | (.ok a, c₁) => run (f a) c₁
      | (.error e, c₁) => (.error e, c₁) := by
  show (v >>= f).run.run c = _
  rw [ExceptT.run_bind, StateT.run_bind]
  show _ = match v.run.run c with
      | (.ok a, c₁) => (f a).run.run c₁
      | (.error e, c₁) => (.error e, c₁)
  rcases v.run.run c with ⟨a | e, c₁⟩ <;> rfl

theorem run_bind_ok {v : Reading α} {f : α → Reading β} {b : β} :
    run (v >>= f) c = (.ok b, c') ↔
      ∃ a c₁, run v c = (.ok a, c₁) ∧ run (f a) c₁ = (.ok b, c') := by
  rw [run_bind]
  rcases run v c with ⟨e | a, c₁⟩
  · simp
  · simp

theorem run_bind_of_ok {v : Reading α} {f : α → Reading β} {a : α} (h : run v c = (.ok a, c')) :
    run (v >>= f) c = run (f a) c' := by
  rw [run_bind, h]

theorem run_bind_of_error {v : Reading α} {f : α → Reading β} {e : WireError}
    (h : run v c = (.error e, c')) : run (v >>= f) c = (.error e, c') := by
  rw [run_bind, h]

theorem run_take (length : Nat) : run (take length) c =
    if c.input.length < length then (.error (.malformed "request field exceeds frame"), c)
    else (.ok (c.input.take length), { c with input := c.input.drop length }) := by
  show (if c.input.length < length then _ else _ : Reading Bytes).run.run c = _
  split <;> rfl

theorem run_reserveCollection (count least : Nat) : run (reserveCollection count least) c =
    if c.collectionItemsLeft < count ∨ c.input.length < count * least then
      (.error .collectionLimit, c)
    else (.ok (), { c with collectionItemsLeft := c.collectionItemsLeft - count }) := by
  show (if c.collectionItemsLeft < count ∨ c.input.length < count * least then _ else _ :
    Reading Unit).run.run c = _
  split <;> rfl

end Running
/-! ## What a reader accepts -/

/-- `v` reads `a` from exactly the byte strings `F a` and takes the items that they declare
off the budget. It starts no more iterations than the budget pays for, but for `credit` of
them that are paid already, and no more than it consumes bytes: when it succeeds there
are `least` bytes to spare, when it fails it may owe `slack`. -/
structure Reads {α : Type} (v : Reading α) (F : α → Bytes → Nat → Prop)
    (least slack credit : Nat) : Prop where
  sound : ∀ {c c' : Cursor} {a : α}, run v c = (.ok a, c') → ∃ bytes items,
    c.input = bytes ++ c'.input ∧ c.collectionItemsLeft = items + c'.collectionItemsLeft ∧
      F a bytes items
  complete : ∀ {c : Cursor} {a : α} {bytes rest : Bytes} {items : Nat}, c.input = bytes ++ rest →
    F a bytes items → items ≤ c.collectionItemsLeft →
    ∃ steps, run v c = (.ok a, ⟨rest, c.collectionItemsLeft - items, steps⟩)
  budget : ∀ c, (run v c).2.itemSteps + (run v c).2.collectionItemsLeft ≤
    c.itemSteps + c.collectionItemsLeft + credit
  pace : ∀ c, (run v c).2.itemSteps + (run v c).2.input.length ≤
    c.itemSteps + c.input.length + slack
  pace_ok : ∀ {c c' : Cursor} {a : α}, run v c = (.ok a, c') →
    c'.itemSteps + c'.input.length + least ≤ c.itemSteps + c.input.length

section Rules

variable {α β : Type} {v : Reading α} {F F' : α → Bytes → Nat → Prop}
  {least least' slack slack' credit credit' : Nat}

theorem Reads.congr (h : Reads v F least slack credit)
    (hF : ∀ a bytes items, F a bytes items ↔ F' a bytes items) (hl : least' ≤ least)
    (hs : slack ≤ slack') (hc : credit ≤ credit') : Reads v F' least' slack' credit' where
  sound hrun := by
    obtain ⟨bytes, items, hinput, hleft, henc⟩ := h.sound hrun
    exact ⟨bytes, items, hinput, hleft, (hF _ bytes items).mp henc⟩
  complete hinput henc := h.complete hinput ((hF _ _ _).mpr henc)
  budget c := by
    have := h.budget c
    omega
  pace c := by
    have := h.pace c
    omega
  pace_ok hrun := by
    have := h.pace_ok hrun
    omega

/-- One reader after the other: what the first one leaves is read by the second one. -/
theorem Reads.bind {w : α → Reading β} {G : α → β → Bytes → Nat → Prop}
    (hv : Reads v F least slack credit)
    (hw : ∀ a, Reads (w a) (G a) least' slack' credit') {s : Nat}
    (h : slack ≤ s) (h' : slack' ≤ s + least) :
    Reads (v >>= w) (fun b bytes items => ∃ a b₁ b₂ m n, bytes = b₁ ++ b₂ ∧ items = m + n ∧
      F a b₁ m ∧ G a b b₂ n) (least + least') s (credit + credit') where
  -- the bytes are those of both readers, and so are the items
  sound hrun := by
    obtain ⟨a, c₁, hfirst, hsecond⟩ := run_bind_ok.mp hrun
    obtain ⟨b₁, m, hin₁, hleft₁, henc₁⟩ := hv.sound hfirst
    obtain ⟨b₂, n, hin₂, hleft₂, henc₂⟩ := (hw a).sound hsecond
    refine ⟨b₁ ++ b₂, m + n, ?_, by omega, a, b₁, b₂, m, n, rfl, rfl, henc₁, henc₂⟩
    rw [hin₁, hin₂, List.append_assoc]
  -- the first reader finds its bytes, and leaves those of the second one
  complete {c b bytes rest items} hinput henc hleft := by
    obtain ⟨a, b₁, b₂, m, n, rfl, rfl, henc₁, henc₂⟩ := henc
    rw [List.append_assoc] at hinput
    obtain ⟨steps, hfirst⟩ := hv.complete hinput henc₁ (by omega)
    obtain ⟨steps', hsecond⟩ := (hw a).complete
      (c := ⟨b₂ ++ rest, c.collectionItemsLeft - m, steps⟩) rfl henc₂ (by show n ≤ _ - m; omega)
    refine ⟨steps', ?_⟩
    rw [run_bind_of_ok hfirst, hsecond, Nat.sub_sub]
  -- the budget is spent by both, or the first one has failed
  budget c := by
    have hfirst := hv.budget c
    rcases hrun : run v c with ⟨error | a, c₁⟩ <;> rw [hrun] at hfirst
    · rw [run_bind_of_error hrun]
      exact hfirst.trans (by omega)
    · rw [run_bind_of_ok hrun]
      have := (hw a).budget c₁
      dsimp only at hfirst
      omega
  -- every item costs a byte, of the one or of the other
  pace c := by
    have hfirst := hv.pace c
    rcases hrun : run v c with ⟨error | a, c₁⟩ <;> rw [hrun] at hfirst
    · rw [run_bind_of_error hrun]
      exact hfirst.trans (Nat.add_le_add_left h _)
    · rw [run_bind_of_ok hrun]
      have := hv.pace_ok hrun
      have := (hw a).pace c₁
      omega
  pace_ok hrun := by
    obtain ⟨a, c₁, hfirst, hsecond⟩ := run_bind_ok.mp hrun
    have := hv.pace_ok hfirst
    have := (hw a).pace_ok hsecond
    omega

theorem reads_pure (a : α) :
    Reads (pure a) (fun b bytes items => b = a ∧ bytes = [] ∧ items = 0) 0 0 0 where
  sound := by
    rintro c c' b ⟨⟩
    exact ⟨[], 0, rfl, (Nat.zero_add _).symm, rfl, rfl, rfl⟩
  complete {c b bytes rest items} hinput henc _ := by
    obtain ⟨rfl, rfl, rfl⟩ := henc
    obtain rfl : c.input = rest := hinput
    exact ⟨c.itemSteps, rfl⟩
  budget c := le_rfl
  pace c := le_rfl
  pace_ok := by
    rintro c c' b ⟨⟩
    exact le_rfl

theorem reads_throw (e : WireError) (least : Nat) :
    Reads (throw e : Reading α) (fun _ _ _ => False) least 0 0 where
  sound := by rintro c c' b ⟨⟩
  complete _ henc := henc.elim
  budget c := le_rfl
  pace c := le_rfl
  pace_ok := by rintro c c' b ⟨⟩

theorem reads_take (length : Nat) :
    Reads (take length) (fun a bytes items => a = bytes ∧ bytes.length = length ∧ items = 0)
      length 0 0 where
  -- the bytes that are taken are the first ones of the input
  sound {c c' a} hrun := by
    rw [run_take] at hrun
    split at hrun
    · cases hrun
    · cases hrun
      exact ⟨c.input.take length, 0, (List.take_append_drop ..).symm, (Nat.zero_add _).symm,
        rfl, by rw [List.length_take]; omega, rfl⟩
  complete {c a bytes rest items} hinput henc _ := by
    obtain ⟨rfl, rfl, rfl⟩ := henc
    refine ⟨c.itemSteps, ?_⟩
    rw [run_take, if_neg (by rw [hinput, List.length_append]; omega)]
    simp [hinput]
  -- nothing is counted
  budget c := by
    rw [run_take]
    split <;> exact le_rfl
  pace c := by
    rw [run_take]
    split
    · exact le_rfl
    · show c.itemSteps + (c.input.drop length).length ≤ _
      rw [List.length_drop]
      omega
  pace_ok {c c' a} hrun := by
    rw [run_take] at hrun
    split at hrun
    · cases hrun
    · cases hrun
      show c.itemSteps + (c.input.drop length).length + length ≤ _
      rw [List.length_drop]
      omega

/-- The iteration that begins is paid by the first byte that it consumes. -/
theorem Reads.tick (h : Reads v F (least + 1) slack credit) :
    Reads (Wire.tick >>= fun _ => v) F least (slack + 1) (credit + 1) where
  -- starting an iteration touches neither the input nor the budget
  sound {c c' a} hrun :=
    h.sound (c := { c with itemSteps := c.itemSteps + 1 }) (by rwa [run_bind_of_ok run_tick] at hrun)
  complete {c a bytes rest items} hinput henc hleft := by
    rw [run_bind_of_ok run_tick]
    exact h.complete (c := { c with itemSteps := c.itemSteps + 1 }) hinput henc hleft
  budget c := by
    rw [run_bind_of_ok run_tick]
    have := h.budget { c with itemSteps := c.itemSteps + 1 }
    dsimp only at this
    omega
  -- the iteration counts once, and was paid with one byte
  pace c := by
    rw [run_bind_of_ok run_tick]
    have := h.pace { c with itemSteps := c.itemSteps + 1 }
    dsimp only at this
    omega
  pace_ok {c c' a} hrun := by
    rw [run_bind_of_ok run_tick] at hrun
    have := h.pace_ok hrun
    dsimp only at this
    omega

/-- The check before a collection is read: no collection is turned down that is there, as
its items are not shorter than the check assumes. -/
theorem Reads.reserve {count m : Nat} (h : Reads v F least slack count)
    (hF : ∀ a bytes items, F a bytes items → count * m ≤ bytes.length) :
    Reads (reserveCollection count m >>= fun _ => v)
      (fun a bytes items => ∃ n, items = count + n ∧ F a bytes n) least slack 0 where
  -- the items are counted before they are read
  sound {c c' a} hrun := by
    obtain ⟨_, c₁, hfirst, hsecond⟩ := run_bind_ok.mp hrun
    rw [run_reserveCollection] at hfirst
    split at hfirst
    · cases hfirst
    · cases hfirst
      obtain ⟨bytes, n, hinput, hleft, henc⟩ := h.sound hsecond
      dsimp only at hinput hleft
      exact ⟨bytes, count + n, hinput, by omega, n, rfl, henc⟩
  -- the collection is there, so that its items fit the bytes that are left
  complete {c a bytes rest items} hinput henc hleft := by
    obtain ⟨n, rfl, henc⟩ := henc
    have hlength := hF a bytes n henc
    have hrun : run (reserveCollection count m) c =
        (.ok (), { c with collectionItemsLeft := c.collectionItemsLeft - count }) := by
      rw [run_reserveCollection, if_neg]
      rw [hinput, List.length_append]
      omega
    obtain ⟨steps, hrest⟩ := h.complete
      (c := { c with collectionItemsLeft := c.collectionItemsLeft - count }) hinput henc
      (by dsimp only; omega)
    refine ⟨steps, ?_⟩
    rw [run_bind_of_ok hrun, hrest, Nat.sub_sub]
  budget c := by
    rw [run_bind, run_reserveCollection]
    -- the collection is turned down, or counted
    by_cases hc : c.collectionItemsLeft < count ∨ c.input.length < count * m
    · rw [if_pos hc]
      exact le_rfl
    · rw [if_neg hc]
      have := h.budget { c with collectionItemsLeft := c.collectionItemsLeft - count }
      dsimp only at this ⊢
      omega
  pace c := by
    rw [run_bind, run_reserveCollection]
    by_cases hc : c.collectionItemsLeft < count ∨ c.input.length < count * m
    · rw [if_pos hc]
      exact Nat.le_add_right ..
    · rw [if_neg hc]
      exact h.pace { c with collectionItemsLeft := c.collectionItemsLeft - count }
  pace_ok {c c' a} hrun := by
    obtain ⟨_, c₁, hfirst, hsecond⟩ := run_bind_ok.mp hrun
    rw [run_reserveCollection] at hfirst
    split at hfirst
    · cases hfirst
    · cases hfirst
      exact h.pace_ok (c := { c with collectionItemsLeft := c.collectionItemsLeft - count }) hsecond

end Rules

/-! ## Numbers -/

/-- `i16` and `i32`. -/
theorem reads_signed (width : Nat) : Reads (do return signed (← take width))
    (fun a bytes items => bytes.length = width ∧ a = signed bytes ∧ items = 0) width 0 0 := by
  have h := (reads_take width).bind (fun bytes => reads_pure (signed bytes)) le_rfl (Nat.zero_le _)
  refine h.congr (fun a bytes items => ?_) le_rfl le_rfl le_rfl
  constructor
  · rintro ⟨_, b₁, b₂, m, n, rfl, rfl, ⟨rfl, hlength, rfl⟩, rfl, rfl, rfl⟩
    simp [hlength]
  · rintro ⟨hlength, rfl, rfl⟩
    exact ⟨bytes, bytes, [], 0, 0, by simp, rfl, ⟨rfl, hlength, rfl⟩, rfl, rfl, rfl⟩

/-- What the loop reads when `index` groups have been read: the rest of the number, above
the bits that are there. -/
def RestOfVarint (fuel index value : Nat) (a : Nat) (bytes : Bytes) (items : Nat) : Prop :=
  items = 0 ∧ bytes.length ≤ fuel ∧ a < 2 ^ 32 ∧
    ∃ high, Groups bytes high ∧ a = value + 2 ^ (7 * index) * high

theorem restOfVarint_cons {fuel index value a items : Nat} (hindex : fuel + 1 + index = 5)
    (hvalue : value < 2 ^ (7 * index)) (b : UInt8) (rest : Bytes) :
    RestOfVarint (fuel + 1) index value a (b :: rest) items ↔
      ¬ (index = 4 ∧ 15 < b.toNat % 128) ∧
      (if b.toNat < 128 then
        a = value + 2 ^ (7 * index) * (b.toNat % 128) ∧ rest = [] ∧ items = 0
      else RestOfVarint fuel (index + 1) (value + 2 ^ (7 * index) * (b.toNat % 128)) a rest items) := by
  have hcons := restOfGroup_cons (a := a) (show fuel + index = 4 by omega)
    (show 7 * 4 < 32 ∧ 32 ≤ 7 * (4 + 1) by decide) hvalue b rest
  have hrest : ∀ fuel index value a bytes, RestOfVarint fuel index value a bytes items ↔
      items = 0 ∧ RestOfGroup 32 fuel index value a bytes := fun _ _ _ _ _ => Iff.rfl
  have hbits : 2 ^ (32 - 7 * 4) ≤ b.toNat % 128 ↔ 15 < b.toNat % 128 := Iff.rfl
  rw [hrest, hrest, hcons, hbits]
  by_cases hsmall : b.toNat < 128
  · simp only [if_pos hsmall]
    tauto
  · simp only [if_neg hsmall]
    tauto

theorem reads_unsignedVarintFrom {fuel index value : Nat} (hindex : fuel + index = 5)
    (hvalue : value < 2 ^ (7 * index)) :
    Reads (unsignedVarintFrom fuel index value) (RestOfVarint fuel index value) 1 0 0 := by
  induction fuel generalizing index value with
  | zero =>
    refine (reads_throw _ 1).congr (fun a bytes items => ?_) le_rfl le_rfl le_rfl
    constructor
    · exact False.elim
    · rintro ⟨-, hlength, -, high, hgroups, -⟩
      have := hgroups.pos
      omega
  | succ fuel ih =>
    -- what is read after the byte `first`
    let after (first : Bytes) (a : Nat) (bytes : Bytes) (items : Nat) : Prop :=
      ¬ (index = 4 ∧ 15 < (first.headD 0).toNat % 128) ∧
      (if (first.headD 0).toNat < 128 then
        a = value + 2 ^ (7 * index) * ((first.headD 0).toNat % 128) ∧ bytes = [] ∧ items = 0
      else RestOfVarint fuel (index + 1)
        (value + 2 ^ (7 * index) * ((first.headD 0).toNat % 128)) a bytes items)
    refine ((reads_take 1).bind (fun first => (?_ : Reads _ (after first) 0 0 0)) le_rfl
      (Nat.zero_le _)).congr (fun a bytes items => ?_) le_rfl le_rfl le_rfl
    · dsimp only
      rw [or_shiftLeft hvalue]
      by_cases hfits : index = 4 ∧ 15 < (first.headD 0).toNat % 128
      · rw [if_pos hfits]
        refine (reads_throw _ 0).congr (fun a bytes items => ?_) le_rfl le_rfl le_rfl
        exact ⟨False.elim, fun h => h.1 hfits⟩
      · rw [if_neg hfits]
        by_cases hsmall : (first.headD 0).toNat < 128
        · rw [if_pos hsmall]
          refine (reads_pure _).congr (fun a bytes items => ?_) le_rfl le_rfl le_rfl
          simp only [after, if_pos hsmall, hfits, not_false_eq_true, true_and]
        · rw [if_neg hsmall]
          refine (ih (by omega) (value_lt _ hvalue)).congr (fun a bytes items => ?_)
            (Nat.zero_le _) le_rfl le_rfl
          simp only [after, if_neg hsmall, hfits, not_false_eq_true, true_and]
    · constructor
      · rintro ⟨_, b₁, b₂, m, n, rfl, rfl, ⟨rfl, hlength, rfl⟩, hafter⟩
        obtain ⟨b, rfl⟩ := List.length_eq_one_iff.mp hlength
        rw [Nat.zero_add]
        exact (restOfVarint_cons (by omega) hvalue b b₂).mpr hafter
      · intro h
        cases bytes with
        | nil =>
          obtain ⟨-, -, -, high, hgroups, -⟩ := h
          exact hgroups.elim
        | cons b rest =>
          refine ⟨[b], [b], rest, 0, items, rfl, (Nat.zero_add _).symm, ⟨rfl, rfl, rfl⟩, ?_⟩
          exact (restOfVarint_cons (by omega) hvalue b rest).mp h

theorem reads_unsignedVarint :
    Reads unsignedVarint (fun a bytes items => Varint bytes a ∧ items = 0) 1 0 0 := by
  have hloop : Reads (unsignedVarintFrom 5 0 0) (RestOfVarint 5 0 0) 1 0 0 :=
    reads_unsignedVarintFrom rfl (by decide)
  refine hloop.congr (fun a bytes items => ?_) le_rfl le_rfl le_rfl
  constructor
  · rintro ⟨rfl, hlength, hmax, high, hgroups, rfl⟩
    have : 0 + 2 ^ (7 * 0) * high = high := by omega
    rw [this] at hmax ⊢
    exact ⟨⟨hgroups, hlength, hmax⟩, rfl⟩
  · rintro ⟨⟨hgroups, hlength, hmax⟩, rfl⟩
    exact ⟨rfl, hlength, hmax, a, hgroups, by omega⟩

/-! ## Fields -/

theorem reads_skip (length : Nat) : Reads (do let _ ← take length)
    (fun _ bytes items => bytes.length = length ∧ items = 0) length 0 0 := by
  refine ((reads_take length).bind (fun _ => reads_pure ()) le_rfl (Nat.zero_le _)).congr
    (fun _ bytes items => ?_) le_rfl le_rfl le_rfl
  constructor
  · rintro ⟨_, b₁, b₂, m, n, rfl, rfl, ⟨rfl, hlength, rfl⟩, -, rfl, rfl⟩
    simp [hlength]
  · rintro ⟨hlength, rfl⟩
    exact ⟨bytes, bytes, [], 0, 0, by simp, rfl, ⟨rfl, hlength, rfl⟩, rfl, rfl, rfl⟩

/-- `classic_string` and `classic_bytes`. -/
theorem reads_sized (width : Nat) (nullable : Bool) (detail : String) :
    Reads (do
      let length ← (do return signed (← take width) : Reading Int)
      if length = -1 ∧ nullable then
        return
      else if 0 ≤ length then
        let _ ← take length.toNat
      else
        throw (.malformed detail))
      (fun _ => (Layout.sized width nullable).Encodes) width 0 0 := by
  -- a length of -1 stands for null, where this is allowed
  let after (length : Int) (_ : Unit) (bytes : Bytes) (items : Nat) : Prop :=
    items = 0 ∧ (length = bytes.length ∨ (nullable = true ∧ length = -1 ∧ bytes = []))
  refine ((reads_signed width).bind (fun length => (?_ : Reads _ (after length) 0 0 0)) le_rfl
    (Nat.zero_le _)).congr (fun _ bytes items => ?_) le_rfl le_rfl le_rfl
  -- the length is read, and decides what follows
  · by_cases hnull : length = -1 ∧ nullable = true
    · rw [if_pos hnull]
      refine (reads_pure ()).congr (fun _ bytes items => ?_) le_rfl le_rfl le_rfl
      obtain ⟨hlength, hnullable⟩ := hnull
      constructor
      · rintro ⟨-, rfl, rfl⟩
        exact ⟨rfl, Or.inr ⟨hnullable, hlength, rfl⟩⟩
      · rintro ⟨rfl, h | ⟨-, -, rfl⟩⟩
        · omega
        · exact ⟨rfl, rfl, rfl⟩
    · rw [if_neg hnull]
      by_cases hlength : 0 ≤ length
      · rw [if_pos hlength]
        refine (reads_skip length.toNat).congr (fun _ bytes items => ?_) (Nat.zero_le _) le_rfl le_rfl
        simp only [after]
        constructor
        · rintro ⟨hbytes, rfl⟩
          exact ⟨rfl, Or.inl (by omega)⟩
        · rintro ⟨rfl, h | ⟨-, h, -⟩⟩
          · exact ⟨by omega, rfl⟩
          · omega
      -- a negative length is refused
      · rw [if_neg hlength]
        refine (reads_throw _ 0).congr (fun _ bytes items => ?_) le_rfl le_rfl le_rfl
        simp only [after, false_iff]
        rintro ⟨-, h | ⟨hnullable, h, -⟩⟩
        · omega
        · exact hnull ⟨h, hnullable⟩
  -- the head and what it announces
  · constructor
    · rintro ⟨_, b₁, b₂, m, n, rfl, rfl, ⟨hlength, rfl, rfl⟩, rfl, h⟩
      exact ⟨b₁, b₂, rfl, hlength, rfl, h⟩
    · rintro ⟨head, body, rfl, hlength, rfl, h⟩
      exact ⟨signed head, head, body, 0, 0, rfl, rfl, ⟨hlength, rfl, rfl⟩, rfl, h⟩

theorem reads_classicString (nullable : Bool) :
    Reads (classicString nullable) (fun _ => (Layout.sized 2 nullable).Encodes) 2 0 0 :=
  reads_sized 2 nullable _

theorem reads_classicBytes (nullable : Bool) :
    Reads (classicBytes nullable) (fun _ => (Layout.sized 4 nullable).Encodes) 4 0 0 :=
  reads_sized 4 nullable _

theorem reads_expectI16 (value : Int) :
    Reads (expectI16 value) (fun _ => (Layout.constant 2 value).Encodes) 2 0 0 := by
  let after (n : Int) (_ : Unit) (bytes : Bytes) (items : Nat) : Prop :=
    n = value ∧ bytes = [] ∧ items = 0
  refine ((reads_signed 2).bind (fun n => (?_ : Reads _ (after n) 0 0 0)) le_rfl
    (Nat.zero_le _)).congr (fun _ bytes items => ?_) le_rfl le_rfl le_rfl
  · by_cases hn : n ≠ value
    · rw [if_pos hn]
      refine (reads_throw _ 0).congr (fun _ bytes items => ?_) le_rfl le_rfl le_rfl
      exact ⟨False.elim, fun h => hn h.1⟩
    · rw [if_neg hn]
      refine (reads_pure ()).congr (fun _ bytes items => ?_) le_rfl le_rfl le_rfl
      rw [not_not] at hn
      simp [after, hn]
  · constructor
    · rintro ⟨_, b₁, b₂, m, n, rfl, rfl, ⟨hlength, rfl, rfl⟩, hvalue, rfl, rfl⟩
      simpa [Layout.Encodes, hlength] using hvalue
    · rintro ⟨hlength, hvalue, rfl⟩
      exact ⟨signed bytes, bytes, [], 0, 0, by simp, rfl, ⟨hlength, rfl, rfl⟩, hvalue, rfl, rfl⟩

theorem reads_compactString :
    Reads compactString (fun _ => (Layout.compact false).Encodes) 1 0 0 := by
  let after (length : Nat) (_ : Unit) (bytes : Bytes) (items : Nat) : Prop :=
    length = bytes.length + 1 ∧ items = 0
  refine (reads_unsignedVarint.bind (fun length => (?_ : Reads _ (after length) 0 0 0)) le_rfl
    (Nat.zero_le _)).congr (fun _ bytes items => ?_) le_rfl le_rfl le_rfl
  · by_cases hlength : length = 0
    · rw [if_pos hlength]
      refine (reads_throw _ 0).congr (fun _ bytes items => ?_) le_rfl le_rfl le_rfl
      exact ⟨False.elim, fun h => by omega⟩
    · rw [if_neg hlength]
      refine (reads_skip (length - 1)).congr (fun _ bytes items => ?_) (Nat.zero_le _) le_rfl le_rfl
      simp only [after]
      exact and_congr_left fun _ => by omega
  · constructor
    · rintro ⟨_, b₁, b₂, m, n, rfl, rfl, ⟨hlength, rfl⟩, rfl, rfl⟩
      exact ⟨b₁, b₂, rfl, rfl, Or.inl hlength⟩
    · rintro ⟨head, body, rfl, rfl, hlength | ⟨h, -⟩⟩
      · exact ⟨_, head, body, 0, 0, rfl, rfl, ⟨hlength, rfl⟩, rfl, rfl⟩
      · cases h

theorem reads_compactTransactionalId :
    Reads compactTransactionalId (fun _ => (Layout.compact true).Encodes) 1 0 0 := by
  let after (length : Nat) (_ : Unit) (bytes : Bytes) (items : Nat) : Prop :=
    items = 0 ∧ (length = bytes.length + 1 ∨ (length = 0 ∧ bytes = []))
  refine (reads_unsignedVarint.bind (fun length => (?_ : Reads _ (after length) 0 0 0)) le_rfl
    (Nat.zero_le _)).congr (fun _ bytes items => ?_) le_rfl le_rfl le_rfl
  · by_cases hlength : 0 < length
    · rw [if_pos hlength]
      refine (reads_skip (length - 1)).congr (fun _ bytes items => ?_) (Nat.zero_le _) le_rfl le_rfl
      simp only [after]
      constructor
      · rintro ⟨hbytes, rfl⟩
        exact ⟨rfl, Or.inl (by omega)⟩
      · rintro ⟨rfl, h | ⟨h, -⟩⟩
        · exact ⟨by omega, rfl⟩
        · omega
    · rw [if_neg hlength]
      refine (reads_pure ()).congr (fun _ bytes items => ?_) le_rfl le_rfl le_rfl
      obtain rfl : length = 0 := by omega
      simp [after, and_comm]
  · constructor
    · rintro ⟨_, b₁, b₂, m, n, rfl, rfl, ⟨hlength, rfl⟩, rfl, rfl | ⟨rfl, rfl⟩⟩
      · exact ⟨b₁, b₂, rfl, rfl, Or.inl hlength⟩
      · exact ⟨b₁, [], rfl, rfl, Or.inr ⟨rfl, hlength, rfl⟩⟩
    · rintro ⟨head, body, rfl, rfl, hlength | ⟨-, hlength, rfl⟩⟩
      · exact ⟨_, head, body, 0, 0, rfl, rfl, ⟨hlength, rfl⟩, rfl, Or.inl rfl⟩
      · exact ⟨0, head, [], 0, 0, rfl, rfl, ⟨hlength, rfl⟩, rfl, Or.inr ⟨rfl, rfl⟩⟩

/-! ## Collections -/

section Collections

variable {body : Reading Unit} {item : Layout} {P : Bytes → Nat → Prop}

theorem reads_forItems (h : Reads body (fun _ => P) 1 0 0) (count : Nat) :
    Reads (forItems count body) (fun _ => Repeats P count) 0 1 count := by
  induction count with
  | zero =>
    refine (reads_pure ()).congr (fun _ bytes items => ?_) le_rfl (Nat.zero_le _) le_rfl
    simp [Repeats]
  | succ count ih =>
    have hstep := (h.bind (fun _ => ih) (s := 0) le_rfl (by omega)).tick
    refine hstep.congr (fun _ bytes items => ?_) le_rfl le_rfl (by omega)
    constructor
    · rintro ⟨_, b₁, b₂, m, n, rfl, rfl, hfirst, hrest⟩
      exact ⟨b₁, b₂, m, n, rfl, rfl, hfirst, hrest⟩
    · rintro ⟨b₁, b₂, m, n, rfl, rfl, hfirst, hrest⟩
      exact ⟨(), b₁, b₂, m, n, rfl, rfl, hfirst, hrest⟩

/-- A collection of at least `minimum` bytes an item, after its count. -/
theorem reads_items (h : Reads body (fun _ => item.Encodes) 1 0 0) {minimum : Nat}
    (hmin : minimum ≤ item.least) (count : Nat) :
    Reads (reserveCollection count minimum >>= fun _ => forItems count body)
      (fun _ bytes items => ∃ n, items = count + n ∧ Repeats item.Encodes count bytes n) 0 1 0 :=
  (reads_forItems h count).reserve fun _ _ _ henc =>
    (Nat.mul_le_mul_left count hmin).trans (henc.length_ge fun _ _ hi => hi.length_ge)

/-- What follows the count of a collection. -/
def AfterCount (nullable : Bool) (item : Layout) (count : Int) (bytes : Bytes) (items : Nat) : Prop :=
  (∃ k n : Nat, count = k ∧ Repeats item.Encodes k bytes n ∧ items = k + n) ∨
    (nullable = true ∧ count = -1 ∧ bytes = [] ∧ items = 0)

/-- `classic_array` and what is done with the count that it returns. -/
theorem reads_array {nullable : Bool} {minimum : Nat} {next : Option Nat → Reading Unit}
    (hsome : ∀ count, Reads (reserveCollection count minimum >>= fun _ => next (some count))
      (fun _ bytes items => ∃ n, items = count + n ∧ Repeats item.Encodes count bytes n) 0 1 0)
    (hnone : nullable = true → next none = pure ()) :
    Reads (classicArray nullable minimum >>= next)
      (fun _ => (Layout.array nullable item).Encodes) 4 0 0 := by
  -- what follows the count: nothing, the items, or an error
  have hbranch : ∀ count : Int, Reads
      ((if count = -1 ∧ nullable = true then pure none
        else if 0 ≤ count then reserveCollection count.toNat minimum >>= fun _ => pure (some count.toNat)
        else throw (.malformed "invalid array count") : Reading (Option Nat)) >>= next)
      (fun _ => AfterCount nullable item count) 0 1 0 := by
    intro count
    by_cases hnull : count = -1 ∧ nullable = true
    · rw [if_pos hnull, pure_bind, hnone hnull.2]
      refine (reads_pure ()).congr (fun _ bytes items => ?_) le_rfl (Nat.zero_le _) le_rfl
      obtain ⟨rfl, hnullable⟩ := hnull
      constructor
      · rintro ⟨-, rfl, rfl⟩
        -- null has no items
        exact Or.inr ⟨hnullable, rfl, rfl, rfl⟩
      · rintro (⟨k, n, hcount, -⟩ | ⟨-, -, rfl, rfl⟩)
        · omega
        · exact ⟨rfl, rfl, rfl⟩
    · rw [if_neg hnull]
      by_cases hcount : 0 ≤ count
      · rw [if_pos hcount, bind_assoc]
        refine (hsome count.toNat).congr (fun _ bytes items => ?_) le_rfl le_rfl le_rfl
        constructor
        · rintro ⟨n, rfl, hrepeats⟩
          exact Or.inl ⟨count.toNat, n, (Int.toNat_of_nonneg hcount).symm, hrepeats, rfl⟩
        · rintro (⟨k, n, rfl, hrepeats, rfl⟩ | ⟨-, rfl, -⟩)
          · exact ⟨n, rfl, hrepeats⟩
          · omega
      · rw [if_neg hcount]
        refine (reads_throw _ 0).congr (fun _ bytes items => ?_) le_rfl (Nat.zero_le _) le_rfl
        simp only [false_iff]
        rintro (⟨k, n, rfl, -⟩ | ⟨hnullable, rfl, -⟩)
        · omega
        · exact hnull ⟨rfl, hnullable⟩
  -- the count comes first
  have hread := (reads_signed 4).bind hbranch (s := 0) le_rfl (by omega)
  rw [classicArray, bind_assoc]
  refine hread.congr (fun _ bytes items => ?_) le_rfl le_rfl le_rfl
  constructor
  · rintro ⟨_, b₁, b₂, m, n, rfl, rfl, ⟨hlength, rfl, rfl⟩, hcount⟩
    rw [Nat.zero_add]
    exact ⟨b₁, b₂, rfl, hlength, hcount⟩
  · rintro ⟨head, body, rfl, hlength, hcount⟩
    exact ⟨signed head, head, body, 0, items, rfl, (Nat.zero_add _).symm, ⟨hlength, rfl, rfl⟩, hcount⟩

theorem reads_collection (h : Reads body (fun _ => item.Encodes) 1 0 0) {minimum : Nat}
    (hmin : minimum ≤ item.least) (detail : String) :
    Reads (do
      let count ← orMalformed (← classicArray false minimum) detail
      forItems count body) (fun _ => (Layout.array false item).Encodes) 4 0 0 := by
  apply reads_array
  · intro count
    exact reads_items h hmin count
  · rintro ⟨⟩

theorem reads_nullableCollection (h : Reads body (fun _ => item.Encodes) 1 0 0) {minimum : Nat}
    (hmin : minimum ≤ item.least) :
    Reads (classicArray true minimum >>= fun count => forSomeItems count body)
      (fun _ => (Layout.array true item).Encodes) 4 0 0 :=
  reads_array (reads_items h hmin) (fun _ => rfl)

/-- A collection of fixed items that is skipped at once. -/
theorem reads_fixedCollection {width minimum : Nat} (hmin : minimum ≤ width) (detail : String) :
    Reads (do
      let count ← orMalformed (← classicArray false minimum) detail
      let _ ← take (count * width)) (fun _ => (Layout.array false (.fixed width)).Encodes) 4 0 0 := by
  apply reads_array
  · intro count
    refine (((reads_skip (count * width)).congr (fun _ _ _ => Iff.rfl) (Nat.zero_le _) (Nat.zero_le 1)
      (Nat.zero_le count)).reserve (m := minimum) ?_).congr (fun _ bytes items => ?_) le_rfl le_rfl le_rfl
    · rintro _ bytes items ⟨hlength, -⟩
      rw [hlength]
      exact Nat.mul_le_mul_left count hmin
    · exact exists_congr fun n => and_congr_right fun _ => Layout.repeats_fixed.symm
  · rintro ⟨⟩

theorem reads_taggedFieldsFrom (count : Nat) (previous : Option Nat) :
    Reads (taggedFieldsFrom count previous)
      (fun _ bytes items => Tags count previous bytes ∧ items = 0) 0 1 count := by
  induction count generalizing previous with
  | zero =>
    refine (reads_pure ()).congr (fun _ bytes items => ?_) le_rfl (Nat.zero_le _) le_rfl
    simp [Tags]
  | succ count ih =>
    -- what is read after the tag, and after the size
    let afterSize (tag size : Nat) (_ : Unit) (bytes : Bytes) (items : Nat) : Prop :=
      ∃ payload rest, bytes = payload ++ rest ∧ payload.length = size ∧
        Tags count (some tag) rest ∧ items = 0
    let afterTag (tag : Nat) (_ : Unit) (bytes : Bytes) (items : Nat) : Prop :=
      (∀ p ∈ previous, p < tag) ∧ ∃ size head rest, bytes = head ++ rest ∧ Varint head size ∧
        afterSize tag size () rest items
    have hsize (tag size : Nat) : Reads (take size >>= fun _ => taggedFieldsFrom count (some tag))
        (afterSize tag size) 0 1 count := by
      refine ((reads_take size).bind (fun _ => ih (some tag)) (s := 1) (by omega) (by omega)).congr
        (fun _ bytes items => ?_) (Nat.zero_le _) le_rfl (by omega)
      constructor
      · rintro ⟨payload, _, rest, m, n, rfl, rfl, ⟨rfl, hlength, rfl⟩, htags, rfl⟩
        exact ⟨payload, rest, rfl, hlength, htags, rfl⟩
      · rintro ⟨payload, rest, rfl, hlength, htags, rfl⟩
        exact ⟨payload, payload, rest, 0, 0, rfl, rfl, ⟨rfl, hlength, rfl⟩, htags, rfl⟩
    have htag (tag : Nat) : Reads (unsignedVarint >>= fun size =>
        take size >>= fun _ => taggedFieldsFrom count (some tag))
        (fun _ bytes items => ∃ size head rest, bytes = head ++ rest ∧ Varint head size ∧
          afterSize tag size () rest items) 1 0 count := by
      refine (reads_unsignedVarint.bind (hsize tag) (s := 0) le_rfl (by omega)).congr
        (fun _ bytes items => ?_) le_rfl le_rfl (by omega)
      constructor
      · rintro ⟨size, b₁, b₂, m, n, rfl, rfl, ⟨hhead, rfl⟩, hafter⟩
        rw [Nat.zero_add]
        exact ⟨size, b₁, b₂, rfl, hhead, hafter⟩
      · rintro ⟨size, head, rest, rfl, hhead, hafter⟩
        exact ⟨size, head, rest, 0, items, rfl, (Nat.zero_add _).symm, ⟨hhead, rfl⟩, hafter⟩
    refine (reads_unsignedVarint.bind (fun tag => (?_ : Reads _ (afterTag tag) 1 0 count)) le_rfl
      (Nat.zero_le _)).tick.congr (fun _ bytes items => ?_) (Nat.zero_le _) le_rfl (by omega)
    · have hany : (previous.any fun p => decide (tag ≤ p)) = true ↔ ¬ ∀ p ∈ previous, p < tag := by
        cases previous <;> simp
      by_cases hordered : ∀ p ∈ previous, p < tag
      · rw [if_neg (by rw [hany]; exact not_not.mpr hordered)]
        refine (htag tag).congr (fun _ bytes items => ?_) le_rfl le_rfl le_rfl
        exact (and_iff_right hordered).symm
      · rw [if_pos (hany.mpr hordered)]
        refine (reads_throw _ 1).congr (fun _ bytes items => ?_) le_rfl le_rfl (Nat.zero_le _)
        exact ⟨False.elim, fun h => hordered h.1⟩
    · constructor
      · rintro ⟨tag, b₁, b₂, m, n, rfl, rfl, ⟨hhead, rfl⟩, hordered, _, size, rest, rfl, hsize,
          payload, rest, rfl, rfl, htags, rfl⟩
        exact ⟨⟨b₁, size, payload, rest, tag, rfl, hhead, hsize, hordered, htags⟩, rfl⟩
      · rintro ⟨⟨head, size, payload, rest, tag, rfl, hhead, hsize, hordered, htags⟩, rfl⟩
        exact ⟨tag, head, _, 0, 0, rfl, rfl, ⟨hhead, rfl⟩, hordered, _, size, _, rfl, hsize,
          payload, rest, rfl, rfl, htags, rfl⟩

theorem reads_taggedFields : Reads taggedFields (fun _ => Layout.tags.Encodes) 1 0 0 := by
  have hbranch (count : Nat) := (reads_taggedFieldsFrom count none).reserve (m := 2)
    fun _ _ _ henc => henc.1.length_ge
  refine (reads_unsignedVarint.bind hbranch (s := 0) le_rfl (by omega)).congr
    (fun _ bytes items => ?_) le_rfl le_rfl le_rfl
  constructor
  · rintro ⟨count, b₁, b₂, m, n, rfl, rfl, ⟨hcount, rfl⟩, k, rfl, htags, rfl⟩
    rw [Nat.zero_add]
    exact ⟨b₁, b₂, rfl, hcount, htags⟩
  · rintro ⟨head, body, rfl, hcount, htags⟩
    exact ⟨items, head, body, 0, items, rfl, (Nat.zero_add _).symm, ⟨hcount, rfl⟩, 0, rfl, htags, rfl⟩

end Collections

/-! ## Layouts of requests -/

/-- `v` accepts exactly the encodings of the layout. -/
def Follows {α : Type} (v : Reading α) (layout : Layout) (slack : Nat) : Prop :=
  ∃ F : α → Bytes → Nat → Prop, Reads v F layout.least slack 0 ∧
    ∀ bytes items, (∃ a, F a bytes items) ↔ layout.Encodes bytes items

section Follows

variable {α β : Type} {v : Reading α} {field : Layout} {fields xs ys : List Layout}
  {slack slack' : Nat}

theorem Reads.follows {v : Reading Unit} (h : Reads v (fun _ => field.Encodes) field.least slack 0) :
    Follows v field slack :=
  ⟨_, h, fun _ _ => ⟨fun henc => henc.choose_spec, fun henc => ⟨(), henc⟩⟩⟩

theorem Follows.reads {v : Reading Unit} (h : Follows v field slack) :
    Reads v (fun _ => field.Encodes) field.least slack 0 := by
  obtain ⟨F, hreads, henc⟩ := h
  refine hreads.congr (fun a bytes items => ?_) le_rfl le_rfl le_rfl
  rw [← henc bytes items]
  exact ⟨fun h => ⟨a, h⟩, fun h => h.choose_spec⟩

theorem Follows.seq {w : α → Reading β} {l₁ l₂ : Layout} (hv : Follows v l₁ slack)
    (hw : ∀ a, Follows (w a) l₂ slack') {s : Nat} (h : slack ≤ s) (h' : slack' ≤ s + l₁.least) :
    Follows (v >>= w) (.seq l₁ l₂) s := by
  obtain ⟨F, hF, hl₁⟩ := hv
  choose G hG hl₂ using hw
  refine ⟨_, hF.bind hG h h', fun bytes items => ?_⟩
  constructor
  · rintro ⟨b, a, b₁, b₂, m, n, rfl, rfl, hfirst, hsecond⟩
    exact ⟨b₁, b₂, m, n, rfl, rfl, (hl₁ b₁ m).mp ⟨a, hfirst⟩, (hl₂ a b₂ n).mp ⟨b, hsecond⟩⟩
  · rintro ⟨b₁, b₂, m, n, rfl, rfl, hfirst, hsecond⟩
    obtain ⟨a, hfirst⟩ := (hl₁ b₁ m).mpr hfirst
    obtain ⟨b, hsecond⟩ := (hl₂ a b₂ n).mpr hsecond
    exact ⟨b, a, b₁, b₂, m, n, rfl, rfl, hfirst, hsecond⟩

theorem Follows.congr {l₁ l₂ : Layout} (hv : Follows v l₁ slack)
    (hl : ∀ bytes items, l₁.Encodes bytes items ↔ l₂.Encodes bytes items)
    (hleast : l₂.least ≤ l₁.least) (hs : slack ≤ slack') : Follows v l₂ slack' := by
  obtain ⟨F, hF, hl₁⟩ := hv
  exact ⟨F, hF.congr (fun _ _ _ => Iff.rfl) hleast hs le_rfl,
    fun bytes items => (hl₁ bytes items).trans (hl bytes items)⟩

/-- A record ends. -/
theorem follows_pure (a : α) : Follows (pure a) (.record []) 0 :=
  ⟨_, reads_pure a, fun _ _ => ⟨fun h => h.choose_spec.2, fun h => ⟨a, rfl, h⟩⟩⟩

/-- One field and then the others. -/
theorem Follows.cons {w : α → Reading β} (hv : Follows v field slack)
    (hw : ∀ a, Follows (w a) (.record fields) slack') (h' : slack' ≤ slack + field.least) :
    Follows (v >>= w) (.record (field :: fields)) slack :=
  hv.seq hw le_rfl h'

/-- The last field. -/
theorem Follows.last (h : Follows v field slack) : Follows v (.record [field]) slack :=
  h.congr (fun _ _ => Layout.encodes_record_single.symm) le_rfl le_rfl

/-- Fixed fields that are skipped at once, and then the others. -/
theorem follows_take {w : Bytes → Reading β} (widths : List Nat)
    (hw : ∀ bytes, Follows (w bytes) (.record ys) slack) (h : slack ≤ Layout.total widths) :
    Follows (take (Layout.total widths) >>= w) (.record (widths.map .fixed ++ ys)) 0 := by
  have hskip : Follows (take (Layout.total widths)) (.record (widths.map .fixed)) 0 := by
    refine ⟨_, (reads_take _).congr (fun _ _ _ => Iff.rfl) (Layout.least_fixed widths).le le_rfl
      le_rfl, fun bytes _ => ?_⟩
    rw [Layout.encodes_fixed]
    constructor
    · rintro ⟨_, _, henc⟩
      exact henc
    · intro henc
      exact ⟨bytes, rfl, henc⟩
  refine (hskip.seq hw le_rfl ?_).congr (fun _ _ => Layout.encodes_record_append.symm) ?_ le_rfl
  · rw [Layout.least_fixed]
    omega
  · rw [Layout.least_record_append]
    exact le_rfl

theorem follows_classicString (nullable : Bool) :
    Follows (classicString nullable) (.sized 2 nullable) 0 :=
  (reads_classicString nullable).follows

theorem follows_classicBytes (nullable : Bool) :
    Follows (classicBytes nullable) (.sized 4 nullable) 0 :=
  (reads_classicBytes nullable).follows

theorem follows_nullableCollection {body : Reading Unit} {item : Layout} (h : Follows body item 0)
    (hpos : 1 ≤ item.least) {minimum : Nat} (hmin : minimum ≤ item.least) :
    Follows (classicArray true minimum >>= fun count => forSomeItems count body)
      (.array true item) 0 :=
  (reads_nullableCollection (h.reads.congr (fun _ _ _ => Iff.rfl) hpos le_rfl le_rfl) hmin).follows

theorem follows_collection {body : Reading Unit} {item : Layout} (h : Follows body item 0)
    (hpos : 1 ≤ item.least) {minimum : Nat} (hmin : minimum ≤ item.least) (detail : String) :
    Follows (do
      let count ← orMalformed (← classicArray false minimum) detail
      forItems count body) (.array false item) 0 :=
  (reads_collection (h.reads.congr (fun _ _ _ => Iff.rfl) hpos le_rfl le_rfl) hmin detail).follows

end Follows

end Walstream.Wire

import Walstream.Interaction.Prog

/-!
# Programs against arbitrary answers

A program that does not trust the resource it talks to must be right whatever it is
answered. Two notions say this without any execution relation:

- `Prog.Returns p a`: there are answers with which `p` returns `a`.
- `Prog.Within p n`: `p` is done after at most `n` commands, whatever the answers are.

`Yields` and `DoneWithin` are the same for fallible programs.
-/

namespace Interaction

universe u

namespace Prog

variable {Cmd : Type u} {Resp : Cmd → Type u} {α β : Type u}

/-- Some answers make the program return this value. -/
inductive Returns : Prog Cmd Resp α → α → Prop where
  | ret (a : α) : Returns (ret a) a
  | call {c : Cmd} {k : Resp c → Prog Cmd Resp α} {a : α} (r : Resp c) (h : Returns (k r) a) :
      Returns (call c k) a

/-- The program is done after at most `n` commands, whatever the answers are. -/
def Within : Prog Cmd Resp α → Nat → Prop
  | ret _, _ => True
  | call _ k, n => ∃ m, n = m + 1 ∧ ∀ r, (k r).Within m

theorem returns_bind {p : Prog Cmd Resp α} {f : α → Prog Cmd Resp β} {b : β}
    (h : (p >>= f).Returns b) : ∃ a, p.Returns a ∧ (f a).Returns b := by
  induction p with
  | ret a => exact ⟨a, .ret a, h⟩
  | call c k ih =>
    cases h with
    | call r h =>
      obtain ⟨a, ha, hb⟩ := ih r h
      exact ⟨a, .call r ha, hb⟩

theorem Within.mono {p : Prog Cmd Resp α} {m n : Nat} (h : p.Within m) (hmn : m ≤ n) :
    p.Within n := by
  induction p generalizing m n with
  | ret a => trivial
  | call c k ih =>
    obtain ⟨m, rfl, hk⟩ := h
    exact ⟨n - 1, by omega, fun r => ih r (hk r) (by omega)⟩

theorem within_bind {p : Prog Cmd Resp α} {f : α → Prog Cmd Resp β} {m n : Nat}
    (hp : p.Within m) (hf : ∀ a, p.Returns a → (f a).Within n) : (p >>= f).Within (m + n) := by
  induction p generalizing m with
  | ret a => exact (hf a (.ret a)).mono (by omega)
  | call c k ih =>
    obtain ⟨m, rfl, hk⟩ := hp
    exact ⟨m + n, by omega, fun r => ih r (hk r) fun a ha => hf a (.call r ha)⟩

end Prog

/-! ## Fallible programs -/

section Fallible

variable {Cmd : Type u} {Resp : Cmd → Type u} {ε α β : Type u}

/-- Some answers make the program succeed with this value. -/
def Yields (x : ExceptT ε (Prog Cmd Resp) α) (a : α) : Prop := x.run.Returns (.ok a)

/-- The program succeeds or fails after at most `n` commands. -/
def DoneWithin (x : ExceptT ε (Prog Cmd Resp) α) (n : Nat) : Prop := x.run.Within n

theorem yields_pure {a b : α} (h : Yields (pure a : ExceptT ε (Prog Cmd Resp) α) b) : b = a := by
  cases h
  rfl

theorem not_yields_throw {e : ε} {a : α} :
    ¬ Yields (throw e : ExceptT ε (Prog Cmd Resp) α) a := fun h => by cases h

theorem yields_bind {x : ExceptT ε (Prog Cmd Resp) α} {f : α → ExceptT ε (Prog Cmd Resp) β}
    {b : β} (h : Yields (x >>= f) b) : ∃ a, Yields x a ∧ Yields (f a) b := by
  obtain ⟨r, hr, hb⟩ := Prog.returns_bind (p := x.run) h
  cases r with
  | ok a => exact ⟨a, hr, hb⟩
  | error e => cases hb

theorem doneWithin_pure {a : α} {n : Nat} :
    DoneWithin (pure a : ExceptT ε (Prog Cmd Resp) α) n := trivial

theorem doneWithin_throw {e : ε} {n : Nat} :
    DoneWithin (throw e : ExceptT ε (Prog Cmd Resp) α) n := trivial

theorem doneWithin_bind {x : ExceptT ε (Prog Cmd Resp) α} {f : α → ExceptT ε (Prog Cmd Resp) β}
    {m n l : Nat} (hx : DoneWithin x m) (hf : ∀ a, Yields x a → DoneWithin (f a) n)
    (hl : m + n ≤ l) : DoneWithin (x >>= f) l := by
  refine (Prog.within_bind (p := x.run) hx fun r hr => ?_).mono hl
  cases r with
  | ok a => exact hf a hr
  | error e => trivial

theorem DoneWithin.mono {x : ExceptT ε (Prog Cmd Resp) α} {m n : Nat} (h : DoneWithin x m)
    (hmn : m ≤ n) : DoneWithin x n := Prog.Within.mono h hmn

end Fallible

end Interaction

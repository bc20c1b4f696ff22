import Mathlib.Order.Basic
import Mathlib.Tactic.Common

/-!
# Interactive programs

A program that talks to a shared resource through *commands*: it either returns a
value or issues a command and continues with the response. Nothing is said about
what a command does; that is the business of an execution relation, supplied
separately (`Interaction.Worlds`).

- `Prog`: the free monad over a command signature.
- `Prog.All`: every command the program may ever issue, whatever it is answered,
  satisfies a predicate. This is the part of a specification that needs no
  assumption on the resource.
- `attempt`: the `match result { Ok(..) .. Err(..) .. }` of a fallible program.
-/

namespace Interaction

universe u

/-- A program over commands `Cmd`, where `c : Cmd` is answered in `Resp c`. -/
inductive Prog (Cmd : Type u) (Resp : Cmd → Type u) (α : Type u) : Type u where
  /-- The program is done. -/
  | ret (a : α) : Prog Cmd Resp α
  /-- The program waits for the answer to `c`. -/
  | call (c : Cmd) (k : Resp c → Prog Cmd Resp α) : Prog Cmd Resp α

namespace Prog

variable {Cmd : Type u} {Resp : Cmd → Type u} {α β γ : Type u}

/-- Sequencing: the second program takes over at every leaf of the first. -/
def bind : Prog Cmd Resp α → (α → Prog Cmd Resp β) → Prog Cmd Resp β
  | ret a, f => f a
  | call c k, f => call c fun r => (k r).bind f

/-- The program that issues one command and returns the answer. -/
def perform (c : Cmd) : Prog Cmd Resp (Resp c) := call c ret

instance : Monad (Prog Cmd Resp) where
  pure := ret
  bind := bind

@[simp] theorem pure_eq (a : α) : (pure a : Prog Cmd Resp α) = ret a := rfl

@[simp] theorem ret_bind (a : α) (f : α → Prog Cmd Resp β) : (ret a >>= f) = f a := rfl

@[simp] theorem call_bind (c : Cmd) (k : Resp c → Prog Cmd Resp α)
    (f : α → Prog Cmd Resp β) :
    (call c k >>= f) = call c fun r => k r >>= f := rfl

@[simp] theorem perform_bind (c : Cmd) (f : Resp c → Prog Cmd Resp β) :
    (perform c >>= f) = call c f := rfl

private theorem bind_assoc' (p : Prog Cmd Resp α) (f : α → Prog Cmd Resp β)
    (g : β → Prog Cmd Resp γ) : (p >>= f) >>= g = p >>= fun a => f a >>= g := by
  induction p with
  | ret a => rfl
  | call c k ih =>
    simp only [call_bind]
    congr 1
    funext r
    exact ih r

instance : LawfulMonad (Prog Cmd Resp) := LawfulMonad.mk' _
  (fun p => by
    induction p with
    | ret a => rfl
    | call c k ih =>
      change call c (fun r => (k r) >>= ret) = call c k
      congr 1
      funext r
      exact ih r)
  (fun _ _ => rfl)
  (fun p f g => bind_assoc' p f g)

/-! ## Commands a program may issue -/

/-- Every command of the program satisfies `φ`, whatever the answers are. -/
def All (φ : Cmd → Prop) : Prog Cmd Resp α → Prop
  | ret _ => True
  | call c k => φ c ∧ ∀ r, (k r).All φ

variable {φ ψ : Cmd → Prop}

@[simp] theorem all_ret (a : α) : (ret a : Prog Cmd Resp α).All φ := trivial

@[simp] theorem all_call {c : Cmd} {k : Resp c → Prog Cmd Resp α} :
    (call c k).All φ ↔ φ c ∧ ∀ r, (k r).All φ := Iff.rfl

@[simp] theorem all_perform {c : Cmd} : (perform c : Prog Cmd Resp (Resp c)).All φ ↔ φ c := by
  simp [perform]

theorem all_bind {p : Prog Cmd Resp α} {f : α → Prog Cmd Resp β}
    (hp : p.All φ) (hf : ∀ a, (f a).All φ) : (p >>= f).All φ := by
  induction p with
  | ret a => exact hf a
  | call c k ih => exact ⟨hp.1, fun r => ih r (hp.2 r)⟩

theorem all_of_forall (h : ∀ c, φ c) : (p : Prog Cmd Resp α) → p.All φ
  | ret _ => trivial
  | call _ k => ⟨h _, fun r => all_of_forall h (k r)⟩

theorem All.mono (h : ∀ c, φ c → ψ c) : {p : Prog Cmd Resp α} → p.All φ → p.All ψ
  | ret _, _ => trivial
  | call _ _, hp => ⟨h _ hp.1, fun r => (hp.2 r).mono h⟩

end Prog

/-! ## Fallible programs -/

section Fallible

variable {Cmd : Type u} {Resp : Cmd → Type u} {ε α β : Type u} {φ : Cmd → Prop}

/-- Run a fallible program and hand its result, good or bad, to the continuation. -/
def attempt (x : ExceptT ε (Prog Cmd Resp) α) : ExceptT ε (Prog Cmd Resp) (Except ε α) :=
  ExceptT.lift x.run

/-- `Prog.All` for a fallible program. -/
def Issues (φ : Cmd → Prop) (x : ExceptT ε (Prog Cmd Resp) α) : Prop := x.run.All φ

@[simp] theorem issues_pure (a : α) : Issues φ (pure a : ExceptT ε (Prog Cmd Resp) α) := trivial

@[simp] theorem issues_throw (e : ε) :
    Issues φ (throw e : ExceptT ε (Prog Cmd Resp) α) := trivial

theorem issues_bind {x : ExceptT ε (Prog Cmd Resp) α} {f : α → ExceptT ε (Prog Cmd Resp) β}
    (hx : Issues φ x) (hf : ∀ a, Issues φ (f a)) : Issues φ (x >>= f) := by
  refine Prog.all_bind (p := x.run) hx fun r => ?_
  cases r with
  | ok a => exact hf a
  | error e => trivial

theorem issues_lift {p : Prog Cmd Resp α} (hp : p.All φ) :
    Issues φ (ExceptT.lift p : ExceptT ε (Prog Cmd Resp) α) :=
  Prog.all_bind hp fun _ => trivial

theorem Issues.mono {ψ : Cmd → Prop} {x : ExceptT ε (Prog Cmd Resp) α}
    (h : ∀ c, φ c → ψ c) (hx : Issues φ x) : Issues ψ x :=
  Prog.All.mono h hx

end Fallible

end Interaction

import Mathlib.Tactic.Common

/-!
# Critical sections

A computation on the state behind a lock. It may stop with an error; what it has changed
until then stays changed, as when a guard is dropped early.

- `Section`: errors over state.
- `Section.Gives`: the result and the state a section ends with, from a given state.
- `within`: a section on the content of an optional state.
-/

namespace Interaction

/-- A computation on a state `σ` that may stop with an `ε`. -/
abbrev Section (σ ε α : Type) := ExceptT ε (StateM σ) α

namespace Section

variable {σ ε α β : Type}

/-- The result of the section and the state it leaves. -/
def exec (x : Section σ ε α) (s : σ) : Except ε α × σ := (ExceptT.run x).run s

/-- From state `s` the section either returns a value such that `Q`, or stops with an error
such that `F`, each of them with the state it leaves. -/
def Gives (x : Section σ ε α) (s : σ) (Q : α → σ → Prop) (F : ε → σ → Prop) : Prop :=
  match x.exec s with
  | (.ok a, s') => Q a s'
  | (.error e, s') => F e s'

/-- Stop when a check has failed. -/
def check (r : Except ε α) : Section σ ε α := ExceptT.mk (pure r)

/-- `o`, or stop. -/
def orStop (o : Option α) (e : ε) : Section σ ε α :=
  match o with
  | some a => pure a
  | none => throw e

/-- A section on the content of an optional state, which is `s`. -/
def within (s : σ) (x : Section σ ε α) : Section (Option σ) ε α :=
  ExceptT.mk fun _ => ((x.exec s).1, some (x.exec s).2)

/-! ## Results -/

variable {s : σ}

@[simp] theorem exec_pure (a : α) : (pure a : Section σ ε α).exec s = (.ok a, s) := rfl

@[simp] theorem exec_throw (e : ε) : (throw e : Section σ ε α).exec s = (.error e, s) := rfl

@[simp] theorem exec_get : (get : Section σ ε σ).exec s = (.ok s, s) := rfl

@[simp] theorem exec_set (s' : σ) : (set s' : Section σ ε PUnit).exec s = (.ok ⟨⟩, s') := rfl

@[simp] theorem exec_modify (f : σ → σ) :
    (modify f : Section σ ε PUnit).exec s = (.ok ⟨⟩, f s) := rfl

@[simp] theorem exec_check (r : Except ε α) : (check r : Section σ ε α).exec s = (r, s) := rfl

@[simp] theorem exec_within (x : Section σ ε α) (o : Option σ) :
    (within s x).exec o = ((x.exec s).1, some (x.exec s).2) := rfl

theorem exec_bind (x : Section σ ε α) (f : α → Section σ ε β) :
    (x >>= f).exec s = match x.exec s with
      | (.ok a, s') => (f a).exec s'
      | (.error e, s') => (.error e, s') := by
  simp only [exec, ExceptT.run_bind, StateT.run_bind]
  rcases (ExceptT.run x).run s with ⟨_ | a, s'⟩
  · rfl
  · rfl

/-! ## Rules -/

variable {Q : α → σ → Prop} {F : ε → σ → Prop}

theorem gives_def {x : Section σ ε α} : Gives x s Q F ↔
    (∀ a s', x.exec s = (.ok a, s') → Q a s') ∧ ∀ e s', x.exec s = (.error e, s') → F e s' := by
  unfold Gives
  rcases x.exec s with ⟨_ | a, s'⟩
  · simp
  · simp

theorem gives_of_ok {x : Section σ ε α} {a : α} {s' : σ} (h : x.exec s = (.ok a, s')) :
    Gives x s Q F ↔ Q a s' := by
  unfold Gives
  rw [h]

theorem gives_of_error {x : Section σ ε α} {e : ε} {s' : σ} (h : x.exec s = (.error e, s')) :
    Gives x s Q F ↔ F e s' := by
  unfold Gives
  rw [h]

@[simp] theorem gives_pure {a : α} : Gives (pure a) s Q F ↔ Q a s := Iff.rfl

@[simp] theorem gives_throw {e : ε} : Gives (throw e : Section σ ε α) s Q F ↔ F e s := Iff.rfl

@[simp] theorem gives_get {Q : σ → σ → Prop} :
    Gives (get : Section σ ε σ) s Q F ↔ Q s s := Iff.rfl

@[simp] theorem gives_set {s' : σ} {Q : PUnit → σ → Prop} :
    Gives (set s' : Section σ ε PUnit) s Q F ↔ Q ⟨⟩ s' := Iff.rfl

@[simp] theorem gives_modify {f : σ → σ} {Q : PUnit → σ → Prop} :
    Gives (modify f : Section σ ε PUnit) s Q F ↔ Q ⟨⟩ (f s) := Iff.rfl

@[simp] theorem gives_check_ok {a : α} :
    Gives (check (.ok a) : Section σ ε α) s Q F ↔ Q a s := Iff.rfl

@[simp] theorem gives_check_error {e : ε} :
    Gives (check (.error e) : Section σ ε α) s Q F ↔ F e s := Iff.rfl

@[simp] theorem gives_orStop_some {a : α} {e : ε} :
    Gives (orStop (some a) e) s Q F ↔ Q a s := Iff.rfl

@[simp] theorem gives_orStop_none {e : ε} :
    Gives (orStop none e : Section σ ε α) s Q F ↔ F e s := Iff.rfl

/-- Sequencing: the second section starts where the first one ends. -/
@[simp] theorem gives_bind {x : Section σ ε α} {f : α → Section σ ε β} {Q : β → σ → Prop} :
    Gives (x >>= f) s Q F ↔ Gives x s (fun a s' => Gives (f a) s' Q F) F := by
  unfold Gives
  rw [exec_bind]
  rcases x.exec s with ⟨_ | a, s'⟩
  · rfl
  · rfl

@[simp] theorem gives_within {x : Section σ ε α} {o : Option σ} {Q : α → Option σ → Prop}
    {F : ε → Option σ → Prop} : Gives (within s x) o Q F ↔
      Gives x s (fun a s' => Q a (some s')) fun e s' => F e (some s') := by
  unfold Gives
  rw [exec_within]
  rcases x.exec s with ⟨_ | a, s'⟩
  · rfl
  · rfl

end Section

end Interaction

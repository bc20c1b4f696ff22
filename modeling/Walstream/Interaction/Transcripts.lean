import Walstream.Interaction.Answers
import Walstream.Interaction.Worlds

/-!
# Transcripts

What a program has said and heard: its commands, in order, each with its answer. A
transcript says nothing about the resource that gave the answers, so that what holds of
all transcripts holds whatever the resource and its other users do.

- `Prog.Talks p log a`: answered as in `log`, `p` issues the commands of `log` and
  returns `a`.
- `Obeys φ F x`: in every transcript the commands of `x` satisfy `φ`, and its errors `F`.
- `Prog.replay`: the transcript of a program whose answers are given by a script.
-/

namespace Interaction

universe u

/-- One command and the answer to it. -/
structure Exchange (Cmd : Type u) (Resp : Cmd → Type u) where
  command : Cmd
  answer : Resp command

namespace Prog

variable {Cmd : Type u} {Resp : Cmd → Type u} {α β : Type u}

/-- Answered as in the transcript, the program issues its commands and returns `a`. -/
inductive Talks : Prog Cmd Resp α → List (Exchange Cmd Resp) → α → Prop where
  | ret (a : α) : Talks (ret a) [] a
  | call {c : Cmd} {k : Resp c → Prog Cmd Resp α} {log : List (Exchange Cmd Resp)} {a : α}
      (r : Resp c) (h : Talks (k r) log a) : Talks (call c k) (⟨c, r⟩ :: log) a

variable {p : Prog Cmd Resp α} {log : List (Exchange Cmd Resp)} {a : α}

/-- A transcript of a sequence is one of its first part followed by one of its second. -/
theorem talks_bind {f : α → Prog Cmd Resp β} {b : β} (h : (p >>= f).Talks log b) :
    ∃ before after a, log = before ++ after ∧ p.Talks before a ∧ (f a).Talks after b := by
  induction p generalizing log with
  | ret a => exact ⟨[], log, a, rfl, .ret a, h⟩
  | call c k ih =>
    cases h with
    | call r h =>
      obtain ⟨before, after, a, rfl, hbefore, hafter⟩ := ih r h
      exact ⟨⟨c, r⟩ :: before, after, a, rfl, .call r hbefore, hafter⟩

theorem Talks.returns (h : p.Talks log a) : p.Returns a := by
  induction h with
  | ret a => exact .ret a
  | call r _ ih => exact .call r ih

/-- Where every command has an answer, the program can be talked through. -/
theorem exists_talks (p : Prog Cmd Resp α) (hanswer : ∀ c : Cmd, Nonempty (Resp c)) :
    ∃ log a, p.Talks log a := by
  induction p with
  | ret a => exact ⟨[], a, .ret a⟩
  | call c k ih =>
    obtain ⟨r⟩ := hanswer c
    obtain ⟨log, a, h⟩ := ih r
    exact ⟨_, a, .call r h⟩

/-- What holds of the commands of all transcripts holds of those that may be issued. -/
theorem all_of_talks (hanswer : ∀ c : Cmd, Nonempty (Resp c)) {φ : Cmd → Prop}
    (h : ∀ log a, p.Talks log a → ∀ e ∈ log, φ e.command) : p.All φ := by
  induction p with
  | ret a => trivial
  | call c k ih =>
    refine ⟨?_, fun r => ih r fun log a ht e he => h _ a (.call r ht) e (List.mem_cons_of_mem _ he)⟩
    obtain ⟨log, a, ht⟩ := (call c k).exists_talks hanswer
    cases ht with
    | call r ht => exact h _ a (.call r ht) _ List.mem_cons_self

/-- The transcript of a program that is answered by a script, and its result, if the
script is long enough. -/
def replay : List ((c : Cmd) → Resp c) → Prog Cmd Resp α →
    Option (List (Exchange Cmd Resp) × α)
  | _, ret a => some ([], a)
  | [], call _ _ => none
  | answer :: answers, call c k =>
    (replay answers (k (answer c))).map fun p => (⟨c, answer c⟩ :: p.1, p.2)

theorem replay_talks {answers : List ((c : Cmd) → Resp c)}
    (h : p.replay answers = some (log, a)) : p.Talks log a := by
  induction p generalizing answers log with
  | ret b =>
    simp only [replay, Option.some.injEq, Prod.mk.injEq] at h
    obtain ⟨rfl, rfl⟩ := h
    exact .ret b
  | call c k ih =>
    cases answers with
    | nil => cases h
    | cons answer answers =>
      simp only [replay, Option.map_eq_some_iff, Prod.mk.injEq] at h
      obtain ⟨⟨log', a'⟩, hrest, rfl, rfl⟩ := h
      exact .call (answer c) (ih _ hrest)

end Prog

/-! ## Fallible programs -/

section Fallible

variable {Cmd : Type u} {Resp : Cmd → Type u} {ε α β : Type u}
  {x : ExceptT ε (Prog Cmd Resp) α} {log : List (Exchange Cmd Resp)}

/-- The first part of a sequence fails, or the second part takes over. -/
theorem talks_run_bind {f : α → ExceptT ε (Prog Cmd Resp) β} {r : Except ε β}
    (h : (x >>= f).run.Talks log r) :
    (∃ e, x.run.Talks log (.error e) ∧ r = .error e) ∨
      ∃ before after a, log = before ++ after ∧ x.run.Talks before (.ok a) ∧
        (f a).run.Talks after r := by
  obtain ⟨before, after, a, rfl, hbefore, hafter⟩ := Prog.talks_bind (p := x.run) h
  cases a with
  | ok a => exact .inr ⟨before, after, a, rfl, hbefore, hafter⟩
  | error e =>
    cases hafter
    exact .inl ⟨e, by simpa using hbefore, rfl⟩

theorem talks_run_pure {a : α} {r : Except ε α}
    (h : (pure a : ExceptT ε (Prog Cmd Resp) α).run.Talks log r) : log = [] ∧ r = .ok a := by
  cases h
  exact ⟨rfl, rfl⟩

theorem talks_run_throw {e : ε} {r : Except ε α}
    (h : (throw e : ExceptT ε (Prog Cmd Resp) α).run.Talks log r) : log = [] ∧ r = .error e := by
  cases h
  exact ⟨rfl, rfl⟩

/-- One command at the start of a fallible program. -/
theorem talks_run_perform {c : Cmd} {f : Resp c → ExceptT ε (Prog Cmd Resp) α}
    {r : Except ε α}
    (h : (ExceptT.lift (Prog.perform c) >>= f).run.Talks log r) :
    ∃ answer after, log = ⟨c, answer⟩ :: after ∧ (f answer).run.Talks after r := by
  cases h with
  | call answer h => exact ⟨answer, _, rfl, h⟩

/-- An attempt always hands over the outcome of what is attempted. -/
theorem talks_run_attempt {f : Except ε α → ExceptT ε (Prog Cmd Resp) β} {r : Except ε β}
    (h : (attempt x >>= f).run.Talks log r) :
    ∃ before after outcome, log = before ++ after ∧ x.run.Talks before outcome ∧
      (f outcome).run.Talks after r := by
  rcases talks_run_bind h with ⟨e, h, -⟩ | ⟨before, after, outcome, rfl, hbefore, hafter⟩
  · obtain ⟨before, after, outcome, rfl, -, h⟩ := Prog.talks_bind (p := x.run) h
    cases h
  · obtain ⟨l₁, l₂, outcome', rfl, hx, h⟩ := Prog.talks_bind (p := x.run) hbefore
    cases h
    exact ⟨l₁, after, outcome, by simp, hx, hafter⟩

/-! ## Programs that keep to a rule -/

/-- Whatever it is answered, the program issues only commands with `φ` and fails only with
errors with `F`. -/
def Obeys (φ : Cmd → Prop) (F : ε → Prop) (x : ExceptT ε (Prog Cmd Resp) α) : Prop :=
  ∀ log r, x.run.Talks log r → (∀ t ∈ log, φ t.command) ∧ ∀ e, r = .error e → F e

variable {φ : Cmd → Prop} {F : ε → Prop}

theorem Obeys.issues (hanswer : ∀ c : Cmd, Nonempty (Resp c))
    {x : ExceptT ε (Prog Cmd Resp) α} (h : Obeys φ F x) : Issues φ x :=
  Prog.all_of_talks hanswer fun log r ht => (h log r ht).1

theorem obeys_pure {a : α} : Obeys φ F (pure a : ExceptT ε (Prog Cmd Resp) α) := by
  intro log r h
  obtain ⟨rfl, rfl⟩ := talks_run_pure h
  simp

theorem obeys_throw {e : ε} (h : F e) :
    Obeys φ F (throw e : ExceptT ε (Prog Cmd Resp) α) := by
  intro log r ht
  obtain ⟨rfl, rfl⟩ := talks_run_throw ht
  simpa using h

theorem obeys_bind {f : α → ExceptT ε (Prog Cmd Resp) β} (hx : Obeys φ F x)
    (hf : ∀ a, Obeys φ F (f a)) : Obeys φ F (x >>= f) := by
  intro log r h
  rcases talks_run_bind h with ⟨e, hfirst, rfl⟩ | ⟨before, after, a, rfl, hbefore, hafter⟩
  · obtain ⟨hφ, hF⟩ := hx log _ hfirst
    exact ⟨hφ, fun e' he => Except.error.inj he ▸ hF e rfl⟩
  · obtain ⟨hφ, -⟩ := hx before _ hbefore
    obtain ⟨hφ', hF⟩ := hf a after _ hafter
    exact ⟨List.forall_mem_append.mpr ⟨hφ, hφ'⟩, hF⟩

/-- Nothing comes after a failure. -/
theorem obeys_throw_bind {e : ε} {f : α → ExceptT ε (Prog Cmd Resp) β} (h : F e) :
    Obeys φ F ((throw e : ExceptT ε (Prog Cmd Resp) α) >>= f) :=
  show Obeys φ F (throw e : ExceptT ε (Prog Cmd Resp) β) from obeys_throw h

theorem obeys_perform {c : Cmd} (h : φ c) :
    Obeys φ F (ExceptT.lift (Prog.perform c) : ExceptT ε (Prog Cmd Resp) (Resp c)) := by
  intro log r ht
  cases ht with
  | call answer ht =>
    cases ht
    simpa using h

/-- A run is a transcript of the answers that the resource gave. -/
theorem Runs.talks {S : Type*} {exec : Exec Cmd Resp S} {p : Prog Cmd Resp α} {s s' : S}
    {cs : List Cmd} {a : α} (h : Runs exec s p cs a s') :
    ∃ log, p.Talks log a ∧ log.map Exchange.command = cs := by
  induction h with
  | ret s a => exact ⟨[], .ret a, rfl⟩
  | @call s s₁ s₂ c k r cs a hexec _ ih =>
    obtain ⟨log, htalks, hlog⟩ := ih
    exact ⟨⟨c, r⟩ :: log, .call r htalks, by simp [hlog]⟩

/-- The rule holds in every run. -/
theorem Obeys.runs {S : Type*} {exec : Exec Cmd Resp S} {s s' : S} {cs : List Cmd}
    {r : Except ε α} (h : Obeys φ F x) (hrun : Runs exec s x.run cs r s') :
    (∀ c ∈ cs, φ c) ∧ ∀ e, r = .error e → F e := by
  obtain ⟨log, htalks, rfl⟩ := hrun.talks
  obtain ⟨hφ, hF⟩ := h log r htalks
  refine ⟨fun c hc => ?_, hF⟩
  obtain ⟨t, ht, rfl⟩ := List.mem_map.mp hc
  exact hφ t ht

end Fallible

end Interaction

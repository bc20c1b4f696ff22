import Walstream.Interaction.Prog
import Mathlib.Logic.Function.Basic
import Mathlib.Logic.Relation

/-!
# A logic of growing worlds for interfering programs

Any number of programs run against one shared state, one command at a time and in
any order. The proof method is a Kripke one: a *world* is the shared state together
with whatever auxiliary knowledge the proof keeps about it, and worlds are ordered
by "may come later". Knowledge that is upward closed in this order survives every step
of everybody. What a program reserves for itself need only survive the steps of the
others, which `Arena.rely` describes; in return the program's own commands keep to
`Arena.guarantee`. So each program is verified alone.

- `Arena`: the view from worlds to shared states, the execution relation, and what one
  program relies on and guarantees.
- `Arena.wp`: whatever the interference before each command and whatever the answer,
  the new shared state is the view of a world that the guarantee admits, and the
  postcondition holds in the world where the program ends.
- `Arena.Ends`: the same for fallible programs, with one condition for each outcome.
- `System`: the interleaving semantics; `System.steps_world` turns a verified program for
  every client into an invariant of all interleavings.
- `Runs`: a run of one program that nobody interrupts.
-/

namespace Interaction

universe u v w

/-- What each command may answer, and the shared state it may leave. -/
abbrev Exec (Cmd : Type u) (Resp : Cmd → Type u) (S : Type v) :=
  (c : Cmd) → S → Resp c → S → Prop

/-- One program among others: worlds seen as shared states, the commands executed on
these, and what the program and the others may do. -/
structure Arena (Cmd : Type u) (Resp : Cmd → Type u) (S : Type v) (W : Type w) [Preorder W] where
  /-- The shared state of a world. -/
  view : W → S
  /-- The commands' effect on the shared state. -/
  exec : Exec Cmd Resp S
  /-- What the others may do before the next command. -/
  rely : W → W → Prop
  /-- What a command of the program may do. -/
  guarantee : W → W → Prop
  rely_refl : ∀ w, rely w w
  rely_trans : ∀ {w₁ w₂ w₃}, rely w₁ w₂ → rely w₂ w₃ → rely w₁ w₃
  rely_le : ∀ {w w'}, rely w w' → w ≤ w'
  guarantee_refl : ∀ w, guarantee w w
  guarantee_le : ∀ {w w'}, guarantee w w' → w ≤ w'

namespace Arena

variable {Cmd : Type u} {Resp : Cmd → Type u} {S : Type v} {W : Type w} [Preorder W]
variable {α β ε : Type u}

/-! ## Weakest preconditions -/

/-- `wp p Q w`: from world `w` on, every command of `p` keeps to the guarantee, and `Q`
holds of the result in the world where `p` returns. -/
def wp (M : Arena Cmd Resp S W) : Prog Cmd Resp α → (α → W → Prop) → W → Prop
  | .ret a, Q, w => Q a w
  | .call c k, Q, w => ∀ w', M.rely w w' → ∀ r s, M.exec c (M.view w') r s →
      ∃ w'', M.guarantee w' w'' ∧ M.view w'' = s ∧ M.wp (k r) Q w''

variable {M : Arena Cmd Resp S W}

theorem wp_mono {p : Prog Cmd Resp α} {Q Q' : α → W → Prop} {w : W}
    (h : M.wp p Q w) (hQ : ∀ a w', w ≤ w' → Q a w' → Q' a w') : M.wp p Q' w := by
  induction p generalizing w with
  | ret a => exact hQ a w le_rfl h
  | call c k ih =>
    intro w₁ hw₁ r s hexec
    obtain ⟨w₂, hw₂, hview, hrest⟩ := h w₁ hw₁ r s hexec
    have hle : w ≤ w₂ := (M.rely_le hw₁).trans (M.guarantee_le hw₂)
    exact ⟨w₂, hw₂, hview, ih r hrest fun a w' hw' => hQ a w' (hle.trans hw')⟩

/-- What is verified stays verified when the others take steps. -/
theorem wp_rely {p : Prog Cmd Resp α} {Q : α → W → Prop} {w w' : W}
    (hQ : ∀ a w₁ w₂, M.rely w₁ w₂ → Q a w₁ → Q a w₂) (h : M.wp p Q w) (hw : M.rely w w') :
    M.wp p Q w' := by
  cases p with
  | ret a => exact hQ a w w' hw h
  | call c k => exact fun w₁ hw₁ => h w₁ (M.rely_trans hw hw₁)

theorem wp_bind {p : Prog Cmd Resp α} {f : α → Prog Cmd Resp β} {Q : β → W → Prop} {w : W}
    (h : M.wp p (fun a => M.wp (f a) Q) w) : M.wp (p >>= f) Q w := by
  induction p generalizing w with
  | ret a => exact h
  | call c k ih =>
    intro w₁ hw₁ r s hexec
    obtain ⟨w₂, hw₂, hview, hrest⟩ := h w₁ hw₁ r s hexec
    exact ⟨w₂, hw₂, hview, ih r hrest⟩

/-- What holds before whatever it holds after holds of a verified program's worlds, as the
program can be run to its end. -/
theorem wp_before {φ : Cmd → Prop} (htotal : ∀ c s, φ c → ∃ r s', M.exec c s r s') {D : W → Prop}
    (hD : ∀ w w', w ≤ w' → D w' → D w) {p : Prog Cmd Resp α} {Q : α → W → Prop} {w : W}
    (hp : p.All φ) (hQ : ∀ a w', Q a w' → D w') (h : M.wp p Q w) : D w := by
  induction p generalizing w with
  | ret a => exact hQ a w h
  | call c k ih =>
    obtain ⟨r, s, hexec⟩ := htotal c (M.view w) hp.1
    obtain ⟨w', hw', -, hrest⟩ := h w (M.rely_refl w) r s hexec
    exact hD w w' (M.guarantee_le hw') (ih r (hp.2 r) hrest)

/-! ## Fallible programs -/

/-- From world `w` on, `x` returns only values that satisfy `Q` and fails only with
errors that satisfy `F`, each in the world where it ends. -/
def Ends (M : Arena Cmd Resp S W) (x : ExceptT ε (Prog Cmd Resp) α) (w : W)
    (Q : α → W → Prop) (F : ε → W → Prop) : Prop :=
  M.wp x.run (fun r w' => match r with
    | .ok a => Q a w'
    | .error e => F e w') w

variable {F F' : ε → W → Prop} {w : W}

theorem ends_pure {Q : α → W → Prop} {a : α} (h : Q a w) :
    M.Ends (pure a : ExceptT ε (Prog Cmd Resp) α) w Q F := h

theorem ends_throw {Q : α → W → Prop} {e : ε} (h : F e w) :
    M.Ends (throw e : ExceptT ε (Prog Cmd Resp) α) w Q F := h

/-- Sequencing: the second program starts in a later world in which the first one's
postcondition holds. -/
theorem ends_bind {x : ExceptT ε (Prog Cmd Resp) α} {f : α → ExceptT ε (Prog Cmd Resp) β}
    {P : α → W → Prop} {Q : β → W → Prop} (hx : M.Ends x w P F)
    (hf : ∀ a w', w ≤ w' → P a w' → M.Ends (f a) w' Q F) : M.Ends (x >>= f) w Q F := by
  refine wp_bind (p := x.run) (wp_mono hx fun r w' hw' hr => ?_)
  cases r with
  | ok a => exact hf a w' hw' hr
  | error e => exact hr

theorem ends_mono {x : ExceptT ε (Prog Cmd Resp) α} {Q Q' : α → W → Prop}
    (h : M.Ends x w Q F) (hQ : ∀ a w', w ≤ w' → Q a w' → Q' a w')
    (hF : ∀ e w', w ≤ w' → F e w' → F' e w') : M.Ends x w Q' F' :=
  wp_mono h fun r w' hw' hr => by
    cases r with
    | ok a => exact hQ a w' hw' hr
    | error e => exact hF e w' hw' hr

/-- The outcome of an attempt is either a value or an error of the program. -/
theorem ends_attempt {x : ExceptT ε (Prog Cmd Resp) α} {P : α → W → Prop}
    (hx : M.Ends x w P F') :
    M.Ends (attempt x) w (fun r w' => match r with
      | .ok a => P a w'
      | .error e => F' e w') F := by
  refine wp_bind (p := x.run) (wp_mono hx fun r w' _ hr => ?_)
  cases r with
  | ok a => exact hr
  | error e => exact hr

theorem ends_lift {p : Prog Cmd Resp α} {Q : α → W → Prop} (h : M.wp p Q w) :
    M.Ends (ExceptT.lift p : ExceptT ε (Prog Cmd Resp) α) w Q F :=
  wp_bind (wp_mono h fun _ _ _ hQ => hQ)

end Arena

/-! ## Interleavings -/

/-- One program of a configuration: the shared state it was started in, and what is
left of it. -/
structure Task (Cmd : Type u) (Resp : Cmd → Type u) (S : Type v) (α : Type u) where
  /-- The shared state when the program was started. -/
  started : S
  /-- The rest of the program. -/
  code : Prog Cmd Resp α

/-- The shared state and the programs started so far. A program that is never
scheduled again has stopped. -/
structure Config (Client : Type v) (Cmd : Type u) (Resp : Cmd → Type u) (S : Type v)
    (α : Type u) where
  shared : S
  tasks : Client → Option (Task Cmd Resp S α)

/-- Clients, what each of them runs, the effect of its commands, and the steps the
environment takes by itself. -/
structure System (Client : Type v) (Cmd : Type u) (Resp : Cmd → Type u) (S : Type v)
    (α : Type u) where
  program : Client → Prog Cmd Resp α
  exec : Client → Exec Cmd Resp S
  environment : S → S → Prop

namespace System

variable {Client : Type v} [DecidableEq Client] {Cmd : Type u} {Resp : Cmd → Type u}
  {S : Type v} {α : Type u}

/-- One step: a client starts, a client's pending command is executed, or the
environment acts. -/
inductive Step (Y : System Client Cmd Resp S α) :
    Config Client Cmd Resp S α → Config Client Cmd Resp S α → Prop where
  | start {cfg : Config Client Cmd Resp S α} (cl : Client) (h : cfg.tasks cl = none) :
      Y.Step cfg ⟨cfg.shared,
        Function.update cfg.tasks cl (some ⟨cfg.shared, Y.program cl⟩)⟩
  | call {cfg : Config Client Cmd Resp S α} (cl : Client) {s₀ s : S} {c : Cmd}
      {k : Resp c → Prog Cmd Resp α} {r : Resp c}
      (h : cfg.tasks cl = some ⟨s₀, .call c k⟩) (hexec : Y.exec cl c cfg.shared r s) :
      Y.Step cfg ⟨s, Function.update cfg.tasks cl (some ⟨s₀, k r⟩)⟩
  | environment {cfg : Config Client Cmd Resp S α} {s : S}
      (h : Y.environment cfg.shared s) : Y.Step cfg ⟨s, cfg.tasks⟩

/-- The configuration in which nobody has started. -/
def initial (s : S) : Config Client Cmd Resp S α := ⟨s, fun _ => none⟩

/-- The configurations some interleaving leads to from shared state `s`. -/
def Reachable (Y : System Client Cmd Resp S α) (s : S)
    (cfg : Config Client Cmd Resp S α) : Prop :=
  Relation.ReflTransGen Y.Step (initial s) cfg

variable {W : Type w} [Preorder W] {Y : System Client Cmd Resp S α}
  {M : Client → Arena Cmd Resp S W} {view : W → S} {Pre : Client → W → Prop}
  {Post : Client → S → α → W → Prop}

/-- The arenas of the clients fit together: they see the same shared state, and each
client relies only on what all the others and the environment guarantee. -/
structure Compatible (Y : System Client Cmd Resp S α) (view : W → S)
    (M : Client → Arena Cmd Resp S W) : Prop where
  view_eq : ∀ cl, (M cl).view = view
  exec_eq : ∀ cl, (M cl).exec = Y.exec cl
  guarantee : ∀ {cl cl' w w'}, (M cl).guarantee w w' → cl' ≠ cl → (M cl').rely w w'
  environment : ∀ {w s}, Y.environment (view w) s →
    ∃ w', view w' = s ∧ w ≤ w' ∧ ∀ cl, (M cl).rely w w'

/-- Every client has yet to start, or is on its way to its postcondition. -/
structure Verified (Y : System Client Cmd Resp S α) (view : W → S)
    (M : Client → Arena Cmd Resp S W) (Pre : Client → W → Prop)
    (Post : Client → S → α → W → Prop) (cfg : Config Client Cmd Resp S α) (w : W) : Prop where
  shared : view w = cfg.shared
  pending : ∀ cl, cfg.tasks cl = none → Pre cl w
  tasks : ∀ cl t, cfg.tasks cl = some t → (M cl).wp t.code (Post cl t.started) w

/-- One step of anybody leads to a later world in which everybody is still verified. -/
theorem step_world (hM : Compatible Y view M)
    (hprog : ∀ cl w, Pre cl w → (M cl).wp (Y.program cl) (Post cl (view w)) w)
    (hpre : ∀ cl w w', (M cl).rely w w' → Pre cl w → Pre cl w')
    (hpost : ∀ cl s a w w', (M cl).rely w w' → Post cl s a w → Post cl s a w')
    {cfg cfg' : Config Client Cmd Resp S α} {w : W}
    (h : Y.Verified view M Pre Post cfg w) (hstep : Y.Step cfg cfg') :
    ∃ w', w ≤ w' ∧ Y.Verified view M Pre Post cfg' w' := by
  obtain ⟨hview, hpending, htasks⟩ := h
  -- what the others do keeps a started client verified
  have hrely : ∀ {cl : Client} {t : Task Cmd Resp S α} {w w' : W}, (M cl).rely w w' →
      (M cl).wp t.code (Post cl t.started) w → (M cl).wp t.code (Post cl t.started) w' :=
    fun hw ht => Arena.wp_rely (fun a w₁ w₂ hw => hpost _ _ a w₁ w₂ hw) ht hw
  cases hstep with
  -- the client that starts has its precondition, and the others are as before
  | start cl hnone =>
    refine ⟨w, le_rfl, hview, fun cl' hcl' => ?_, fun cl' t ht => ?_⟩
    · by_cases hcl : cl' = cl
      · simp [hcl] at hcl'
      · exact hpending cl' (by simpa [hcl] using hcl')
    · by_cases hcl : cl' = cl
      · subst hcl
        simp only [Function.update_self, Option.some.injEq] at ht
        subst ht
        rw [← hview]
        exact hprog cl' w (hpending cl' hnone)
      · exact htasks cl' t (by simpa [hcl] using ht)
  -- the client is in the world that its answer leads to, and the others rely on it
  | @call cl s₀ s c k r hsome hexec =>
    have hcall := htasks cl _ hsome
    obtain ⟨w', hw', hview', hrest⟩ := hcall w ((M cl).rely_refl w) r s (by
      rw [hM.exec_eq, hM.view_eq, hview]
      exact hexec)
    rw [hM.view_eq] at hview'
    refine ⟨w', (M cl).guarantee_le hw', hview', fun cl' hcl' => ?_, fun cl' t ht => ?_⟩
    · by_cases hcl : cl' = cl
      · simp [hcl] at hcl'
      · exact hpre cl' w w' (hM.guarantee hw' hcl) (hpending cl' (by simpa [hcl] using hcl'))
    · by_cases hcl : cl' = cl
      · subst hcl
        simp only [Function.update_self, Option.some.injEq] at ht
        subst ht
        exact hrest
      · exact hrely (hM.guarantee hw' hcl) (htasks cl' t (by simpa [hcl] using ht))
  -- the environment is one of those whom everybody relies on
  | environment hstep =>
    obtain ⟨w', hview', hle, hw'⟩ := hM.environment (hview ▸ hstep)
    exact ⟨w', hle, hview', fun cl hcl => hpre cl w w' (hw' cl) (hpending cl hcl),
      fun cl t ht => hrely (hw' cl) (htasks cl t ht)⟩

/-- From a configuration in which everybody is verified every interleaving leads to later
worlds in which everybody is. -/
theorem steps_world (hM : Compatible Y view M)
    (hprog : ∀ cl w, Pre cl w → (M cl).wp (Y.program cl) (Post cl (view w)) w)
    (hpre : ∀ cl w w', (M cl).rely w w' → Pre cl w → Pre cl w')
    (hpost : ∀ cl s a w w', (M cl).rely w w' → Post cl s a w → Post cl s a w')
    {cfg cfg' : Config Client Cmd Resp S α} {w : W}
    (h : Y.Verified view M Pre Post cfg w) (hsteps : Relation.ReflTransGen Y.Step cfg cfg') :
    ∃ w', w ≤ w' ∧ Y.Verified view M Pre Post cfg' w' := by
  induction hsteps with
  | refl => exact ⟨w, le_rfl, h⟩
  | tail _ hstep ih =>
    obtain ⟨w₁, hw₁, hver₁⟩ := ih
    obtain ⟨w₂, hw₂, hver₂⟩ := step_world hM hprog hpre hpost hver₁ hstep
    exact ⟨w₂, hw₁.trans hw₂, hver₂⟩

omit [DecidableEq Client] in
/-- Before anybody has started, everybody is verified. -/
theorem verified_initial {w₀ : W} (hw₀ : ∀ cl, Pre cl w₀) :
    Y.Verified view M Pre Post (initial (view w₀)) w₀ :=
  ⟨rfl, fun cl _ => hw₀ cl, fun cl t ht => by simp [initial] at ht⟩

omit [Preorder W] in
/-- What every request and the environment keep of the shared state holds of every reachable one. -/
theorem reachable_shared {P : S → Prop}
    (hexec : ∀ cl c s r s', P s → Y.exec cl c s r s' → P s')
    (henvironment : ∀ s s', P s → Y.environment s s' → P s') {s : S} (hs : P s)
    {cfg : Config Client Cmd Resp S α} (h : Y.Reachable s cfg) : P cfg.shared := by
  induction h with
  | refl => exact hs
  | tail _ hstep ih =>
    cases hstep with
    | start => exact ih
    | call _ _ h => exact hexec _ _ _ _ _ ih h
    | environment h => exact henvironment _ _ ih h

omit [Preorder W] in
/-- A client that has yet to start will start in a configuration that comes later. -/
theorem started_after {cfg cfg' : Config Client Cmd Resp S α} {cl : Client}
    {t : Task Cmd Resp S α} (hsteps : Relation.ReflTransGen Y.Step cfg cfg')
    (hnone : cfg.tasks cl = none) (ht : cfg'.tasks cl = some t) :
    ∃ cfg₁, Relation.ReflTransGen Y.Step cfg cfg₁ ∧ t.started = cfg₁.shared := by
  -- back from the last step
  induction hsteps generalizing t with
  | refl =>
    rw [hnone] at ht
    cases ht
  | @tail cfg₁ cfg₂ hsteps hstep ih =>
    cases hstep with
    -- this step starts the client, or it had started before
    | start cl' hcl' =>
      by_cases hcl : cl = cl'
      · subst hcl
        simp only [Function.update_self, Option.some.injEq] at ht
        subst ht
        exact ⟨cfg₁, hsteps, rfl⟩
      · exact ih (by simpa [hcl] using ht)
    -- a request does not change when its client started
    | @call cl' s₀ s c k r hsome hexec =>
      by_cases hcl : cl = cl'
      · subst hcl
        simp only [Function.update_self, Option.some.injEq] at ht
        subst ht
        exact ih (t := ⟨s₀, .call c k⟩) hsome
      · exact ih (by simpa [hcl] using ht)
    | environment hstep => exact ih ht

/-- A predicate on commands that each program respects on its own holds of every
command anybody is about to issue. -/
theorem reachable_issues {φ : Client → Cmd → Prop} (hprog : ∀ cl, (Y.program cl).All (φ cl))
    {s : S} {cfg : Config Client Cmd Resp S α} (h : Y.Reachable s cfg) :
    ∀ cl t, cfg.tasks cl = some t → t.code.All (φ cl) := by
  induction h with
  | refl => intro cl t ht; simp [initial] at ht
  | tail _ hstep ih =>
    intro cl' t ht
    cases hstep with
    | start cl hnone =>
      by_cases hcl : cl' = cl
      · subst hcl
        simp only [Function.update_self, Option.some.injEq] at ht
        subst ht
        exact hprog cl'
      · exact ih cl' t (by simpa [hcl] using ht)
    | @call cl s₀ s c k r hsome hexec =>
      by_cases hcl : cl' = cl
      · subst hcl
        simp only [Function.update_self, Option.some.injEq] at ht
        subst ht
        exact (ih cl' _ hsome).2 r
      · exact ih cl' t (by simpa [hcl] using ht)
    | environment hstep => exact ih cl' t ht

end System

/-! ## Uninterrupted runs -/

section Sequential

variable {Cmd : Type u} {Resp : Cmd → Type u} {S : Type v} {α β : Type u}

/-- `Runs exec s p cs a s'`: started in `s` and not interrupted, `p` issues the commands
`cs`, returns `a` and leaves `s'`. -/
inductive Runs (exec : Exec Cmd Resp S) :
    S → Prog Cmd Resp α → List Cmd → α → S → Prop where
  | ret (s : S) (a : α) : Runs exec s (.ret a) [] a s
  | call {s s₁ s₂ : S} {c : Cmd} {k : Resp c → Prog Cmd Resp α} {r : Resp c}
      {cs : List Cmd} {a : α} (hexec : exec c s r s₁) (hrest : Runs exec s₁ (k r) cs a s₂) :
      Runs exec s (.call c k) (c :: cs) a s₂

variable {exec : Exec Cmd Resp S}

/-- A run of a sequence is a run of its first part followed by one of its second. -/
theorem runs_bind {p : Prog Cmd Resp α} {f : α → Prog Cmd Resp β} {s s' : S}
    {cs : List Cmd} {b : β} (h : Runs exec s (p >>= f) cs b s') :
    ∃ cs₁ cs₂ a s₁, cs = cs₁ ++ cs₂ ∧ Runs exec s p cs₁ a s₁ ∧ Runs exec s₁ (f a) cs₂ b s' := by
  induction p generalizing s cs with
  | ret a => exact ⟨[], cs, a, s, rfl, .ret s a, h⟩
  | call c k ih =>
    cases h with
    | call hexec hrest =>
      obtain ⟨cs₁, cs₂, a, s₁, rfl, h₁, h₂⟩ := ih _ hrest
      exact ⟨c :: cs₁, cs₂, a, s₁, rfl, .call hexec h₁, h₂⟩

/-- A client that runs its whole program while nobody else acts. -/
theorem System.steps_of_runs {Client : Type v} [DecidableEq Client]
    {Y : System Client Cmd Resp S α} {cfg : Config Client Cmd Resp S α} {cl : Client}
    (hnone : cfg.tasks cl = none) {cs : List Cmd} {a : α} {s' : S}
    (h : Runs (Y.exec cl) cfg.shared (Y.program cl) cs a s') :
    Relation.ReflTransGen Y.Step cfg
      ⟨s', Function.update cfg.tasks cl (some ⟨cfg.shared, .ret a⟩)⟩ := by
  have hgo : ∀ {s s' : S} {p : Prog Cmd Resp α} {cs : List Cmd} {a : α},
      Runs (Y.exec cl) s p cs a s' → Relation.ReflTransGen Y.Step
        ⟨s, Function.update cfg.tasks cl (some ⟨cfg.shared, p⟩)⟩
        ⟨s', Function.update cfg.tasks cl (some ⟨cfg.shared, .ret a⟩)⟩ := by
    intro s s' p cs a hruns
    induction hruns with
    | ret s a => exact .refl
    | @call s s₁ s₂ c k r cs a hexec _ ih =>
      have hstep : Y.Step ⟨s, Function.update cfg.tasks cl (some ⟨cfg.shared, .call c k⟩)⟩
          ⟨s₁, Function.update (Function.update cfg.tasks cl (some ⟨cfg.shared, .call c k⟩)) cl
            (some ⟨cfg.shared, k r⟩)⟩ := .call cl (Function.update_self ..) hexec
      rw [Function.update_idem] at hstep
      exact .head hstep ih
  exact .head (.start cl hnone) (hgo h)

variable {W : Type w} [Preorder W] {M : Arena Cmd Resp S W}

end Sequential

end Interaction

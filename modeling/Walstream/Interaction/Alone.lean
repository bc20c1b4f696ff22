import Walstream.Interaction.Transcripts
import Walstream.Interaction.Draft

/-!
# Programs that run alone

Pre- and postconditions for programs that nobody interrupts. `Alone exec x s Q E`: every run
of `x` from `s` that succeeds ends in `Q`, and every run that fails ends in `E`. The rules
follow the way programs are built; `Obeys.alone` turns a property of all commands into one of
the final state. `Prog.solo` finds such a run where the answers can be computed.
-/

namespace Interaction

universe u v

section Alone

variable {Cmd : Type u} {Resp : Cmd → Type u} {S : Type v} {ε α β : Type u}

/-- Run from `s` without interruption, the program succeeds with `Q` or fails with `E`. -/
def Alone (exec : Exec Cmd Resp S) (x : ExceptT ε (Prog Cmd Resp) α) (s : S) (Q : α → S → Prop)
    (E : ε → S → Prop) : Prop :=
  ∀ cs r s', Runs exec s x.run cs r s' → (∀ a, r = .ok a → Q a s') ∧ ∀ e, r = .error e → E e s'

variable {exec : Exec Cmd Resp S} {s : S} {Q Q' : α → S → Prop} {E E' : ε → S → Prop}
  {x : ExceptT ε (Prog Cmd Resp) α}

theorem alone_pure {a : α} (h : Q a s) :
    Alone exec (pure a : ExceptT ε (Prog Cmd Resp) α) s Q E := by
  intro cs r s' hrun
  cases hrun
  exact ⟨fun b hb => Except.ok.inj hb ▸ h, fun e he => (nomatch he)⟩

theorem alone_throw {e : ε} (h : E e s) :
    Alone exec (throw e : ExceptT ε (Prog Cmd Resp) α) s Q E := by
  intro cs r s' hrun
  cases hrun
  exact ⟨fun b hb => (nomatch hb), fun e' he => Except.error.inj he ▸ h⟩

theorem alone_bind {f : α → ExceptT ε (Prog Cmd Resp) β} {R : β → S → Prop}
    (hx : Alone exec x s Q E) (hf : ∀ a s', Q a s' → Alone exec (f a) s' R E) :
    Alone exec (x >>= f) s R E := by
  intro cs r s' hrun
  obtain ⟨cs₁, cs₂, outcome, s₁, rfl, hfirst, hrest⟩ := runs_bind (p := x.run) hrun
  obtain ⟨hok, herror⟩ := hx cs₁ outcome s₁ hfirst
  cases outcome with
  | ok a => exact hf a s₁ (hok a rfl) cs₂ r s' hrest
  | error e =>
    cases hrest
    exact ⟨fun b hb => (nomatch hb), fun e' he => Except.error.inj he ▸ herror e rfl⟩

theorem Alone.mono (h : Alone exec x s Q E) (hQ : ∀ a s', Q a s' → Q' a s')
    (hE : ∀ e s', E e s' → E' e s') : Alone exec x s Q' E' := by
  intro cs r s' hrun
  obtain ⟨hok, herror⟩ := h cs r s' hrun
  exact ⟨fun a ha => hQ a s' (hok a ha), fun e he => hE e s' (herror e he)⟩

theorem Alone.and (h : Alone exec x s Q E) (h' : Alone exec x s Q' E') :
    Alone exec x s (fun a s' => Q a s' ∧ Q' a s') fun e s' => E e s' ∧ E' e s' := by
  intro cs r s' hrun
  obtain ⟨hok, herror⟩ := h cs r s' hrun
  obtain ⟨hok', herror'⟩ := h' cs r s' hrun
  exact ⟨fun a ha => ⟨hok a ha, hok' a ha⟩, fun e he => ⟨herror e he, herror' e he⟩⟩

/-- One command: whatever it is answered and whatever it does. -/
theorem alone_ask {c : Cmd} {f : Resp c → ExceptT ε (Prog Cmd Resp) β} {R : β → S → Prop}
    (h : ∀ r s', exec c s r s' → Alone exec (f r) s' R E) :
    Alone exec (ExceptT.lift (Prog.perform c) >>= f) s R E := by
  intro cs r s' hrun
  cases hrun with
  | call hexec hrest => exact h _ _ hexec _ _ _ hrest

/-- An outcome that is looked at: both postconditions are at hand. -/
theorem alone_attempt_bind {f : Except ε α → ExceptT ε (Prog Cmd Resp) β} {R : β → S → Prop}
    (hx : Alone exec x s Q E) (hok : ∀ a s', Q a s' → Alone exec (f (.ok a)) s' R E')
    (herror : ∀ e s', E e s' → Alone exec (f (.error e)) s' R E') :
    Alone exec (attempt x >>= f) s R E' := by
  refine alone_bind (Q := fun outcome s' => (∀ a, outcome = .ok a → Q a s') ∧
    ∀ e, outcome = .error e → E e s') (fun cs r s' hrun => ?_) ?_
  · obtain ⟨cs₁, cs₂, outcome, s₁, rfl, hfirst, hrest⟩ := runs_bind (p := x.run) hrun
    cases hrest
    exact ⟨fun a ha => Except.ok.inj ha ▸ hx _ _ _ hfirst, fun e he => (nomatch he)⟩
  · rintro (e | a) s' ⟨hQ, hE⟩
    · exact herror e s' (hE e rfl)
    · exact hok a s' (hQ a rfl)

/-- What a program returns, it can be made to return by some answers. -/
theorem Alone.yields (h : Alone exec x s Q E) :
    Alone exec x s (fun a s' => Yields x a ∧ Q a s') E := by
  intro cs r s' hrun
  obtain ⟨hok, herror⟩ := h cs r s' hrun
  obtain ⟨log, htalks, -⟩ := hrun.talks
  refine ⟨fun a ha => ⟨?_, hok a ha⟩, herror⟩
  subst ha
  exact htalks.returns

/-- What every admitted command preserves, a program that issues no others preserves. -/
theorem Obeys.alone {φ : Cmd → Prop} {F : ε → Prop} {I : S → Prop} (h : Obeys φ F x)
    (hI : ∀ c s r s', φ c → exec c s r s' → I s → I s') (hs : I s) :
    Alone exec x s (fun _ s' => I s') fun e s' => F e ∧ I s' := by
  intro cs r s' hrun
  obtain ⟨hφ, hF⟩ := h.runs hrun
  have hpreserved : I s' := by
    clear h hF
    generalize x.run = p at hrun
    induction hrun with
    | ret s a => exact hs
    | @call s s₁ s₂ c k r cs a hexec _ ih =>
      refine ih (hI c s r s₁ (hφ c (by simp)) hexec hs) fun c hc => hφ c (by simp [hc])
  exact ⟨fun _ _ => hpreserved, fun e he => ⟨hF e he, hpreserved⟩⟩

end Alone

/-! ## Running -/

section Solo

variable {Cmd : Type u} {Resp : Cmd → Type u} {S : Type v} {α : Type u}

/-- The run of a program whose commands are answered by `reply`, as far as it answers. -/
def Prog.solo (reply : (c : Cmd) → S → Option (Resp c × S)) :
    Prog Cmd Resp α → S → Option (List Cmd × α × S)
  | ret a, s => some ([], a, s)
  | call c k, s => (reply c s).bind fun p =>
    (solo reply (k p.1) p.2).map fun q => (c :: q.1, q.2)

theorem Prog.solo_runs {reply : (c : Cmd) → S → Option (Resp c × S)} {exec : Exec Cmd Resp S}
    (hreply : ∀ c s r s', reply c s = some (r, s') → exec c s r s') {p : Prog Cmd Resp α}
    {s s' : S} {cs : List Cmd} {a : α} (h : p.solo reply s = some (cs, a, s')) :
    Runs exec s p cs a s' := by
  induction p generalizing s cs with
  | ret b =>
    simp only [solo, Option.some.injEq, Prod.mk.injEq] at h
    obtain ⟨rfl, rfl, rfl⟩ := h
    exact .ret s b
  | call c k ih =>
    simp only [solo, Option.bind_eq_some_iff, Option.map_eq_some_iff, Prod.mk.injEq] at h
    obtain ⟨⟨r, s₁⟩, hanswer, ⟨cs', q⟩, hrest, rfl, hq⟩ := h
    exact .call (hreply c s r s₁ hanswer) (ih r (by rw [hrest, ← hq]))

end Solo

/-! ## On a bucket -/

section Bucket

variable {Client Body : Type} {f : Faults} {size : Body → Nat} {cl : Client}
  {b b' : Bucket Client Body} {c : Cmd Body} {r : Resp c}

/-- Reading leaves the bucket as it is. -/
theorem Bucket.Executes.of_reads (h : Bucket.Executes f size cl c b r b') (hc : c.Reads) :
    b' = b := by
  cases c with
  | get path => exact h.2
  | head path => exact h.2
  | put path body mode => exact hc.elim
  | delete path => exact hc.elim
  | list directory => exact hc.elim
  | newV4 => exact hc.elim

instance [DecidableEq Body] (b : Bucket Client Body) (path : String) :
    DecidablePred (b.Admits path)
  | .create => inferInstanceAs (Decidable (b.objects path = none))
  | .update version => inferInstanceAs (Decidable (b.objects path = some version))

/-- How a bucket without faults answers. Listings and UUIDs are left out: it has a choice there. -/
def Bucket.reply [DecidableEq Body] (size : Body → Nat) (cl : Client) :
    (c : Cmd Body) → Bucket Client Body → Option (Resp c × Bucket Client Body)
  | .get path, b =>
    some ((b.objects path).elim (.error .notFound) fun body => .ok ⟨size body, body, .ok body⟩, b)
  | .head path, b => some ((b.objects path).elim (.error .notFound) fun body => .ok (size body), b)
  | .put path body mode, b =>
    if b.Admits path mode then some (.ok body, b.change cl path (some body))
    else some (.error .precondition, b)
  | .delete path, b =>
    if b.objects path = none then some (.error .notFound, b)
    else some (.ok (), b.change cl path none)
  | .list _, _ => none
  | .newV4, _ => none

theorem Bucket.executes_of_reply [DecidableEq Body] (h : Bucket.reply size cl c b = some (r, b')) :
    Bucket.Executes f size cl c b r b' := by
  -- a read is answered by what the path holds
  cases c with
  | get path =>
    simp only [reply, Option.some.injEq, Prod.mk.injEq] at h
    obtain ⟨rfl, rfl⟩ := h
    cases hbody : b.objects path with
    | none => exact ⟨.missing hbody, rfl⟩
    | some body => exact ⟨.found hbody, rfl⟩
  | head path =>
    simp only [reply, Option.some.injEq, Prod.mk.injEq] at h
    obtain ⟨rfl, rfl⟩ := h
    cases hbody : b.objects path with
    | none => exact ⟨.missing hbody, rfl⟩
    | some body => exact ⟨.found hbody, rfl⟩
  -- a write is accepted or refused by its mode, and a delete finds something or not
  | put path body mode =>
    by_cases hadmits : b.Admits path mode
    · simp only [reply, if_pos hadmits] at h
      cases h
      exact .written hadmits
    · simp only [reply, if_neg hadmits] at h
      cases h
      exact .refused trivial hadmits
  | delete path =>
    by_cases hmissing : b.objects path = none
    · simp only [reply, if_pos hmissing] at h
      cases h
      exact .absent hmissing _ (.inr rfl)
    · simp only [reply, if_neg hmissing] at h
      cases h
      obtain ⟨body, hbody⟩ := Option.ne_none_iff_exists'.mp hmissing
      exact .removed hbody
  | list directory => cases h
  | newV4 => cases h

/-- Without faults a program that only reads leaves the bucket as it is, and returns what its
objects say. -/
theorem Runs.eq_eval {α : Type} {p : Prog (Cmd Body) Resp α} {cs : List (Cmd Body)} {a : α}
    (h : Runs (Bucket.Executes Faults.none size cl) b p cs a b') (hp : p.All Cmd.Reads) :
    b' = b ∧ a = p.eval (frozen size b.objects) := by
  -- along the run: each answer is that of the frozen objects
  induction h with
  | ret b a => exact ⟨rfl, rfl⟩
  | @call b b₁ b₂ c k r cs a hexec _ ih =>
    -- the call reads, so that the bucket is the one of before
    obtain rfl := hexec.of_reads hp.1
    have hreply : r = frozen size b₁.objects c := by
      cases c with
      | get path =>
        obtain ⟨hgot, -⟩ := hexec
        cases hgot with
        | found hbody => simp [frozen, hbody]
        | missing hbody => simp [frozen, hbody]
        | interrupted hf => exact hf.elim
        | failed hf => exact hf.elim
      | head path =>
        obtain ⟨hheaded, -⟩ := hexec
        cases hheaded with
        | found hbody => simp [frozen, hbody]
        | missing hbody => simp [frozen, hbody]
        | failed hf => exact hf.elim
      -- the other commands are none of those that a reading program issues
      | put path body mode => exact hp.1.elim
      | delete path => exact hp.1.elim
      | list directory => exact hp.1.elim
      | newV4 => exact hp.1.elim
    subst hreply
    exact ih (hp.2 _)

end Bucket

end Interaction

import Walstream.Interaction.Alone

/-!
# Inquiries

Programs that find out something without leaving a trace. `Inquires f size cl b p a`: nobody
interrupts the program, and every run of it from the bucket `b` issues reads only, leaves the
bucket as it is and returns `a`. The rules build the runs of a program from those of its parts,
and `inquires_eval` takes a part that only reads to what it computes from the objects.
-/

namespace Interaction

variable {Client Body α β ε : Type}

/-- Alone on the bucket, the program can be run, and every run only reads and returns `a`. -/
structure Inquires (f : Faults) (size : Body → Nat) (cl : Client) (b : Bucket Client Body)
    (p : Prog (Cmd Body) Resp α) (a : α) : Prop where
  runs : ∃ cs, Runs (Bucket.Executes f size cl) b p cs a b
  only : ∀ {cs r b'}, Runs (Bucket.Executes f size cl) b p cs r b' →
    r = a ∧ b' = b ∧ ∀ c ∈ cs, c.Reads

variable {f : Faults} {size : Body → Nat} {cl : Client} {b : Bucket Client Body}

theorem inquires_ret (a : α) : Inquires f size cl b (.ret a) a where
  runs := ⟨[], .ret b a⟩
  only h := by
    cases h
    exact ⟨rfl, rfl, by simp⟩

/-- Runs of two parts make a run of the whole. -/
theorem Runs.bind {Cmd : Type} {Resp : Cmd → Type} {S : Type} {exec : Exec Cmd Resp S} {s s₁ s₂ : S}
    {p : Prog Cmd Resp α} {k : α → Prog Cmd Resp β} {cs cs' : List Cmd} {a : α} {r : β}
    (hp : Runs exec s p cs a s₁) (hk : Runs exec s₁ (k a) cs' r s₂) :
    Runs exec s (p >>= k) (cs ++ cs') r s₂ := by
  induction hp with
  | ret s a => exact hk
  | call hexec _ ih => exact .call hexec (ih hk)

theorem Inquires.bind {p : Prog (Cmd Body) Resp α} {k : α → Prog (Cmd Body) Resp β} {a : α} {r : β}
    (hp : Inquires f size cl b p a) (hk : Inquires f size cl b (k a) r) :
    Inquires f size cl b (p >>= k) r where
  runs := by
    obtain ⟨cs, hcs⟩ := hp.runs
    obtain ⟨cs', hcs'⟩ := hk.runs
    exact ⟨_, hcs.bind hcs'⟩
  only h := by
    obtain ⟨cs, cs', a', b₁, rfl, hfirst, hrest⟩ := runs_bind h
    obtain ⟨rfl, rfl, hreads⟩ := hp.only hfirst
    obtain ⟨rfl, rfl, hreads'⟩ := hk.only hrest
    exact ⟨rfl, rfl, List.forall_mem_append.mpr ⟨hreads, hreads'⟩⟩

/-- A read, by a client whose requests reach the store, is answered with what is there. -/
theorem Bucket.Executes.frozen (hf : ¬ f.transport) {c : Cmd Body} {r : Resp c}
    {b' : Bucket Client Body} (h : Bucket.Executes f size cl c b r b') (hc : c.Reads) :
    r = Interaction.frozen size b.objects c := by
  cases c with
  | get path =>
    obtain ⟨hgot, -⟩ := h
    cases hgot with
    | found hbody => simp [Interaction.frozen, hbody]
    | missing hbody => simp [Interaction.frozen, hbody]
    | interrupted hfault => exact absurd hfault hf
    | failed hfault => exact absurd hfault hf
  | head path =>
    obtain ⟨hheaded, -⟩ := h
    cases hheaded with
    | found hbody => simp [Interaction.frozen, hbody]
    | missing hbody => simp [Interaction.frozen, hbody]
    | failed hfault => exact absurd hfault hf
  | put | delete | list | newV4 => exact hc.elim

/-- A store can always answer a read so. -/
theorem executes_frozen {c : Cmd Body} (hc : c.Reads) :
    Bucket.Executes f size cl c b (Interaction.frozen size b.objects c) b := by
  cases c with
  | get path =>
    refine ⟨?_, rfl⟩
    simp only [frozen]
    split
    · exact .found ‹_›
    · exact .missing ‹_›
  | head path =>
    refine ⟨?_, rfl⟩
    simp only [frozen]
    split
    · exact .found ‹_›
    · exact .missing ‹_›
  | put | delete | list | newV4 => exact hc.elim

/-- What only reads finds out what the objects say. -/
theorem inquires_eval (hf : ¬ f.transport) {p : Prog (Cmd Body) Resp α} (hp : p.All Cmd.Reads) :
    Inquires f size cl b p (p.eval (frozen size b.objects)) := by
  induction p with
  | ret a => exact inquires_ret a
  | call c k ih =>
    have hrest := ih (frozen size b.objects c) (hp.2 _)
    refine ⟨?_, fun h => ?_⟩
    · obtain ⟨cs, hcs⟩ := hrest.runs
      exact ⟨c :: cs, .call (executes_frozen hp.1) hcs⟩
    · cases h with
      | call hexec hruns =>
        obtain rfl := hexec.of_reads hp.1
        obtain rfl := hexec.frozen hf hp.1
        obtain ⟨hr, hb, hreads⟩ := hrest.only hruns
        exact ⟨hr, hb, List.forall_mem_cons.mpr ⟨hp.1, hreads⟩⟩

/-! ## Fallible programs -/

variable {x : ExceptT ε (Prog (Cmd Body) Resp) α} {g : α → ExceptT ε (Prog (Cmd Body) Resp) β}

theorem inquires_pure (a : α) :
    Inquires f size cl b (pure a : ExceptT ε (Prog (Cmd Body) Resp) α).run (.ok a) := inquires_ret _

theorem inquires_throw (e : ε) :
    Inquires f size cl b (throw e : ExceptT ε (Prog (Cmd Body) Resp) α).run (.error e) :=
  inquires_ret _

theorem inquires_bind {a : α} {r : Except ε β} (hx : Inquires f size cl b x.run (.ok a))
    (hg : Inquires f size cl b (g a).run r) : Inquires f size cl b (x >>= g).run r :=
  Inquires.bind (p := x.run) hx hg

theorem inquires_bind_error {e : ε} (hx : Inquires f size cl b x.run (.error e)) :
    Inquires f size cl b (x >>= g).run (.error e) :=
  Inquires.bind (p := x.run) hx (inquires_ret _)

/-- An outcome that is looked at. -/
theorem inquires_attempt_bind {g : Except ε α → ExceptT ε (Prog (Cmd Body) Resp) β}
    {outcome : Except ε α} {r : Except ε β} (hx : Inquires f size cl b x.run outcome)
    (hg : Inquires f size cl b (g outcome).run r) :
    Inquires f size cl b (attempt x >>= g).run r :=
  inquires_bind (Inquires.bind (p := x.run) hx (inquires_ret _)) hg

end Interaction

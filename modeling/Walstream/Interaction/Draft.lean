import Walstream.Interaction.Answers
import Walstream.Interaction.Bucket

/-!
# Drafts: local reasoning about preparatory work

A client of a store with conditional writes prepares a change in two phases. First it
reads the immutable objects that its snapshot refers to and creates new immutable objects
under fresh names; then one conditional write makes the result visible. The first phase
is a *draft*: nobody else can observe or disturb it, so it can be verified against a
private view of the store (`Notes`), as if it ran alone.

- `Drafts`: the local semantics. Requests that succeed act on the notes; every request
  that fails makes the program give up and report the failure.
- `Grounds`: what a world has to guarantee so that the local semantics is right about it.
- `Grounds.ends`: a draft verified locally is verified in every such world, under any
  interference.
- `Drafts.runs`: the same for a draft that nobody interrupts, on a store without faults.
- `Prog.eval`: a program run against answers that are fixed in advance, and
  `drafts_eval`: a draft that only reads computes what it would compute alone.
-/

namespace Interaction

/-- What a draft works on: the objects it may rely on, and the names it may create. -/
structure Notes (Body : Type) where
  content : String → Option Body
  own : Set String

namespace Notes

variable {Body : Type}

/-- The notes after creating an object. -/
def write (n : Notes Body) (path : String) (body : Body) : Notes Body :=
  { n with content := Function.update n.content path (some body) }

/-- The notes after drawing names. -/
def draw (n : Notes Body) (names : Set String) : Notes Body :=
  { n with own := n.own ∪ names }

/-- Later notes of the same draft: nothing is changed or forgotten, and all that is new
stands under the draft's own names. -/
structure Grows (n n' : Notes Body) : Prop where
  content : ∀ path body, n.content path = some body → n'.content path = some body
  own : n.own ⊆ n'.own
  fresh : ∀ path body, n'.content path = some body → n.content path = none → path ∈ n'.own

theorem Grows.refl (n : Notes Body) : n.Grows n where
  content := fun _ _ h => h
  own := fun _ h => h
  fresh := fun path body h hnone => by simp [h] at hnone

theorem Grows.trans {n₁ n₂ n₃ : Notes Body} (h : n₁.Grows n₂) (h' : n₂.Grows n₃) :
    n₁.Grows n₃ where
  content := fun path body hb => h'.content path body (h.content path body hb)
  own := fun _ hp => h'.own (h.own hp)
  fresh := fun path body hb hnone => by
    cases hmid : n₂.content path with
    | none => exact h'.fresh path body hb hmid
    | some body' => exact h'.own (h.fresh path body' hmid hnone)

theorem grows_draw (n : Notes Body) (names : Set String) : n.Grows (n.draw names) where
  content := fun _ _ h => h
  own := fun _ h => Or.inl h
  fresh := fun path body h hnone => by simp [draw, hnone] at h

theorem grows_write {n : Notes Body} {path : String} {body : Body} (hown : path ∈ n.own)
    (hnone : n.content path = none) : n.Grows (n.write path body) where
  content := fun path' body' h => by
    have hne : path' ≠ path := fun heq => by simp [heq, hnone] at h
    simpa [write, hne] using h
  own := fun _ h => h
  fresh := fun path' body' h hnone' => by
    by_cases heq : path' = path
    · exact heq ▸ hown
    · simp [write, heq, hnone'] at h

@[simp] theorem write_content_self (n : Notes Body) (path : String) (body : Body) :
    (n.write path body).content path = some body := by simp [write]

@[simp] theorem draw_content (n : Notes Body) (names : Set String) :
    (n.draw names).content = n.content := rfl

@[simp] theorem write_own (n : Notes Body) (path : String) (body : Body) :
    (n.write path body).own = n.own := rfl

end Notes

/-! ## The local semantics -/

section Drafts

variable {Body : Type} (names : Uuid → Set String) (size : Body → Nat)
  {ε α β : Type} (Reports : StoreError → ε → Prop)

/-- The program stops with an error that reports `e`. -/
def GivesUp (e : StoreError) (p : Prog (Cmd Body) Resp (Except ε α)) : Prop :=
  ∃ x, p = .ret (.error x) ∧ Reports e x

/-- `Drafts p Q F n`: working from the notes `n`, `p` reads only what the notes contain,
creates only objects of its own, stops at the first failing request, and ends with `Q`
or, for reasons of its own, with an error in `F`. -/
def Drafts (Q : α → Notes Body → Prop) (F : ε → Prop) :
    Prog (Cmd Body) Resp (Except ε α) → Notes Body → Prop
  | .ret (.ok a), n => Q a n
  | .ret (.error x), _ => F x
  | .call (.get path) k, n => ∃ body, n.content path = some body ∧
      Drafts Q F (k (.ok ⟨size body, body, .ok body⟩)) n ∧
      (∀ e, GivesUp Reports e (k (.error e))) ∧
      ∀ e, GivesUp Reports e (k (.ok ⟨size body, body, .error e⟩))
  | .call (.head path) k, n => ∃ body, n.content path = some body ∧
      Drafts Q F (k (.ok (size body))) n ∧ ∀ e, GivesUp Reports e (k (.error e))
  | .call (.put path body .create) k, n => path ∈ n.own ∧ n.content path = none ∧
      Drafts Q F (k (.ok body)) (n.write path body) ∧ ∀ e, GivesUp Reports e (k (.error e))
  | .call .newV4 k, n => ∀ id, (∀ path ∈ names id, n.content path = none) →
      Drafts Q F (k id) (n.draw (names id))
  | .call (.put _ _ (.update _)) _, _ => False
  | .call (.delete _) _, _ => False
  | .call (.list _) _, _ => False

/-- `Drafts` for a fallible program. -/
def Drafting (x : ExceptT ε (Prog (Cmd Body) Resp) α) (n : Notes Body)
    (Q : α → Notes Body → Prop) (F : ε → Prop) : Prop :=
  Drafts names size Reports Q F x.run n

variable {names size Reports}
variable {Q Q' : α → Notes Body → Prop} {F F' : ε → Prop} {n : Notes Body}

theorem Drafts.mono {p : Prog (Cmd Body) Resp (Except ε α)}
    (h : Drafts names size Reports Q F p n) (hQ : ∀ a n', n.Grows n' → Q a n' → Q' a n')
    (hF : ∀ x, F x → F' x) : Drafts names size Reports Q' F' p n := by
  -- over the commands of the program, with the notes as they are there
  induction p generalizing n with
  | ret r =>
    cases r with
    | ok a => exact hQ a n (.refl n) h
    | error x => exact hF x h
  | call c k ih =>
    cases c with
    -- a read continues with what is noted, and the notes stay
    | get path =>
      obtain ⟨body, hbody, hk, hgives⟩ := h
      exact ⟨body, hbody, ih _ hk hQ, hgives⟩
    | head path =>
      obtain ⟨body, hbody, hk, hgives⟩ := h
      exact ⟨body, hbody, ih _ hk hQ, hgives⟩
    -- only an object that does not exist is created, and only under an own name
    | put path body mode =>
      cases mode with
      | create =>
        obtain ⟨hown, hnone, hk, hgives⟩ := h
        exact ⟨hown, hnone, ih _ hk fun a n' hn' =>
          hQ a n' ((Notes.grows_write hown hnone).trans hn'), hgives⟩
      | update version => exact h
    | delete path => exact h
    | list directory => exact h
    -- the draw adds names, and the rest grows from there
    | newV4 =>
      exact fun id hid => ih _ (h id hid) fun a n' hn' =>
        hQ a n' ((Notes.grows_draw n _).trans hn')

theorem Drafts.bind {p : Prog (Cmd Body) Resp (Except ε α)}
    {f : Except ε α → Prog (Cmd Body) Resp (Except ε β)} {Q : β → Notes Body → Prop} {G : ε → Prop}
    (h : Drafts names size Reports (fun a n' => Drafts names size Reports Q F (f (.ok a)) n')
      G p n)
    (hF : ∀ x, G x → F x) (hf : ∀ x, f (.error x) = .ret (.error x)) :
    Drafts names size Reports Q F (p >>= f) n := by
  -- an error of the first part passes through the second
  have giveUp : ∀ {e : StoreError} {q : Prog (Cmd Body) Resp (Except ε α)},
      GivesUp Reports e q → GivesUp Reports e (q >>= f) := by
    rintro e q ⟨x, rfl, hx⟩
    exact ⟨x, hf x, hx⟩
  -- over the first part, until it returns
  induction p generalizing n with
  | ret r =>
    cases r with
    | ok a => exact h
    | error x =>
      -- the second part does not run
      change Drafts names size Reports Q F (f (.error x)) n
      rw [hf x]
      exact hF x h
  | call c k ih =>
    cases c with
    | get path =>
      obtain ⟨body, hbody, hk, hgives, hgives'⟩ := h
      exact ⟨body, hbody, ih _ hk, fun e => giveUp (hgives e), fun e => giveUp (hgives' e)⟩
    | head path =>
      obtain ⟨body, hbody, hk, hgives⟩ := h
      exact ⟨body, hbody, ih _ hk, fun e => giveUp (hgives e)⟩
    | put path body mode =>
      cases mode with
      | create =>
        obtain ⟨hown, hnone, hk, hgives⟩ := h
        exact ⟨hown, hnone, ih _ hk, fun e => giveUp (hgives e)⟩
      | update version => exact h
    | delete path => exact h
    | list directory => exact h
    | newV4 => exact fun id hid => ih _ (h id hid)

/-! ## Rules -/

theorem drafting_pure {a : α} (h : Q a n) :
    Drafting names size Reports (pure a) n Q F := h

theorem drafting_throw {x : ε} (h : F x) :
    Drafting names size Reports (throw x : ExceptT ε (Prog (Cmd Body) Resp) α) n Q F := h

/-- Sequencing: the second program works from the notes the first one leaves. -/
theorem drafting_bind {x : ExceptT ε (Prog (Cmd Body) Resp) α}
    {f : α → ExceptT ε (Prog (Cmd Body) Resp) β} {P : α → Notes Body → Prop}
    {Q : β → Notes Body → Prop} (hx : Drafting names size Reports x n P F)
    (hf : ∀ a n', n.Grows n' → P a n' → Drafting names size Reports (f a) n' Q F) :
    Drafting names size Reports (x >>= f) n Q F :=
  Drafts.bind (G := F) (Drafts.mono hx hf fun _ => id) (fun _ => id) fun _ => rfl

theorem drafting_mono {x : ExceptT ε (Prog (Cmd Body) Resp) α}
    (h : Drafting names size Reports x n Q F) (hQ : ∀ a n', n.Grows n' → Q a n' → Q' a n')
    (hF : ∀ x, F x → F' x) : Drafting names size Reports x n Q' F' :=
  Drafts.mono h hQ hF

end Drafts

/-- The command reads one object. -/
def Cmd.Reads {Body : Type} : Cmd Body → Prop
  | .get _ | .head _ => True
  | .put _ _ _ | .delete _ | .list _ | .newV4 => False

/-! ## Soundness under interference -/

universe w

section Grounds

variable {Client Body : Type} {W : Type w} [Preorder W]

/-- What a world guarantees a draft. `Rep w n`: the notes are right in world `w`.
`Excuse w e`: in world `w` the store may answer `e` to a read of the draft; `Excuse' w e`: to a
request that creates an object. -/
structure Grounds (M : Arena (Cmd Body) Resp (Bucket Client Body) W) (names : Uuid → Set String)
    (size : Body → Nat) (Rep : W → Notes Body → Prop) (Excuse Excuse' : W → StoreError → Prop) :
    Prop where
  rely : ∀ {w w' n}, M.rely w w' → Rep w n → Rep w' n
  get : ∀ {w n path body r s}, Rep w n → n.content path = some body →
    M.exec (.get path) (M.view w) r s → s = M.view w ∧
      (r = .ok ⟨size body, body, .ok body⟩ ∨
        ∃ e, (r = .error e ∨ r = .ok ⟨size body, body, .error e⟩) ∧ Excuse w e)
  head : ∀ {w n path body r s}, Rep w n → n.content path = some body →
    M.exec (.head path) (M.view w) r s → s = M.view w ∧
      (r = .ok (size body) ∨ ∃ e, r = .error e ∧ Excuse w e)
  put : ∀ {w n path body r s}, Rep w n → path ∈ n.own → n.content path = none →
    M.exec (.put path body .create) (M.view w) r s → ∃ w', M.guarantee w w' ∧ M.view w' = s ∧
      (r = .ok body ∧ Rep w' (n.write path body) ∨ ∃ e, r = .error e ∧ Excuse' w' e)
  newV4 : ∀ {w n id s}, Rep w n → M.exec .newV4 (M.view w) id s →
    (∀ path ∈ names id, n.content path = none) ∧
      ∃ w', M.guarantee w w' ∧ M.view w' = s ∧ Rep w' (n.draw (names id))

variable {M : Arena (Cmd Body) Resp (Bucket Client Body) W} {names : Uuid → Set String}
  {size : Body → Nat} {Rep : W → Notes Body → Prop} {Excuse Excuse' : W → StoreError → Prop}
  {ε α : Type} {Reports : StoreError → ε → Prop} {Q : α → Notes Body → Prop} {F : ε → Prop}

private theorem wp_givesUp {P : Except ε α → W → Prop} {e : StoreError} {w : W}
    {p : Prog (Cmd Body) Resp (Except ε α)} (hp : GivesUp Reports e p)
    (hP : ∀ x, Reports e x → P (.error x) w) : M.wp p P w := by
  obtain ⟨x, rfl, hx⟩ := hp
  exact hP x hx

/-- The local semantics is right about a draft, one command after the other. -/
private theorem Grounds.wp (G : Grounds M names size Rep Excuse Excuse') (creates : Prop)
    (p : Prog (Cmd Body) Resp (Except ε α)) (n : Notes Body) (w : W) (hrep : Rep w n)
    (hp : p.All fun c => creates ∨ c.Reads) (h : Drafts names size Reports Q F p n) :
    M.wp p (fun r w' => match r with
      | .ok a => ∃ n', n.Grows n' ∧ Rep w' n' ∧ Q a n'
      | .error e => F e ∧ (∃ n', Rep w' n') ∨
        ∃ cause, Reports cause e ∧ (Excuse w' cause ∨ creates ∧ Excuse' w' cause)) w := by
  -- over the program, with the notes for the world in which the next request is made
  induction p generalizing n w with
  | ret r =>
    cases r with
    | ok a => exact ⟨n, .refl n, hrep, h⟩
    | error x => exact .inl ⟨h, n, hrep⟩
  | call c k ih =>
    intro w₁ hw₁ r s hexec
    -- the notes are still right when the request is executed
    have hrep₁ := G.rely hw₁ hrep
    have hstill := M.guarantee_refl w₁
    cases c with
    | get path =>
      obtain ⟨body, hbody, hk, hgives, hgives'⟩ := h
      -- the noted object comes back, or the read fails in one of two ways
      obtain ⟨rfl, rfl | ⟨e, rfl | rfl, he⟩⟩ := G.get hrep₁ hbody hexec
      · exact ⟨w₁, hstill, rfl, ih _ n w₁ hrep₁ (hp.2 _) hk⟩
      · exact ⟨w₁, hstill, rfl, wp_givesUp (hgives e) fun x hx => .inr ⟨e, hx, .inl he⟩⟩
      · exact ⟨w₁, hstill, rfl, wp_givesUp (hgives' e) fun x hx => .inr ⟨e, hx, .inl he⟩⟩
    | head path =>
      obtain ⟨body, hbody, hk, hgives⟩ := h
      obtain ⟨rfl, rfl | ⟨e, rfl, he⟩⟩ := G.head hrep₁ hbody hexec
      · exact ⟨w₁, hstill, rfl, ih _ n w₁ hrep₁ (hp.2 _) hk⟩
      · exact ⟨w₁, hstill, rfl, wp_givesUp (hgives e) fun x hx => .inr ⟨e, hx, .inl he⟩⟩
    | put path body mode =>
      have hcreates : creates := hp.1.resolve_right fun hreads => hreads
      cases mode with
      | create =>
        obtain ⟨hown, hnone, hk, hgives⟩ := h
        -- the object is there afterwards, or the write has an excuse
        obtain ⟨w₂, hw₂, hview, ⟨rfl, hrep₂⟩ | ⟨e, rfl, he⟩⟩ := G.put hrep₁ hown hnone hexec
        · refine ⟨w₂, hw₂, hview, Arena.wp_mono (ih _ _ w₂ hrep₂ (hp.2 _) hk) ?_⟩
          rintro (e | a) w₃ _ hr
          · exact hr
          · obtain ⟨n', hgrows, hrest⟩ := hr
            exact ⟨n', (Notes.grows_write hown hnone).trans hgrows, hrest⟩
        · exact ⟨w₂, hw₂, hview, wp_givesUp (hgives e) fun x hx =>
            .inr ⟨e, hx, .inr ⟨hcreates, he⟩⟩⟩
      | update version => exact h.elim
    | delete path => exact h.elim
    | list directory => exact h.elim
    | newV4 =>
      -- the drawn id is fresh, and its names are free
      obtain ⟨hfresh, w₂, hw₂, hview, hrep₂⟩ := G.newV4 hrep₁ hexec
      refine ⟨w₂, hw₂, hview, Arena.wp_mono (ih _ _ w₂ hrep₂ (hp.2 _) (h r hfresh)) ?_⟩
      rintro (e | a) w₃ _ hr
      · exact hr
      · obtain ⟨n', hgrows, hrest⟩ := hr
        exact ⟨n', (Notes.grows_draw n _).trans hgrows, hrest⟩

/-- **Drafts are local**: a program verified against its notes keeps its promise in every
world in which the notes are right, whatever the others do meanwhile; it may fail in
addition with the store's own excuses. -/
theorem Grounds.ends (G : Grounds M names size Rep Excuse Excuse')
    {x : ExceptT ε (Prog (Cmd Body) Resp) α} {n : Notes Body} {w : W} (hrep : Rep w n)
    (hx : Drafting names size Reports x n Q F) :
    M.Ends x w (fun a w' => ∃ n', n.Grows n' ∧ Rep w' n' ∧ Q a n')
      (fun e w' => F e ∧ (∃ n', Rep w' n') ∨
        ∃ cause, Reports cause e ∧ (Excuse w' cause ∨ Excuse' w' cause)) :=
  Arena.wp_mono (G.wp True x.run n w hrep
    (Prog.all_of_forall (fun _ => .inl trivial) _) hx) fun r _ _ hr => by
      cases r with
      | ok a => exact hr
      | error e =>
        exact hr.imp_right fun ⟨cause, hreports, hexcuse⟩ =>
          ⟨cause, hreports, hexcuse.imp_right And.right⟩

/-- A draft that creates nothing fails only with the excuses for reads. -/
theorem Grounds.ends_reads (G : Grounds M names size Rep Excuse Excuse')
    {x : ExceptT ε (Prog (Cmd Body) Resp) α} {n : Notes Body} {w : W} (hrep : Rep w n)
    (hreads : Issues Cmd.Reads x) (hx : Drafting names size Reports x n Q F) :
    M.Ends x w (fun a w' => ∃ n', n.Grows n' ∧ Rep w' n' ∧ Q a n')
      (fun e w' => F e ∧ (∃ n', Rep w' n') ∨ ∃ cause, Reports cause e ∧ Excuse w' cause) :=
  Arena.wp_mono (G.wp False x.run n w hrep (hreads.mono fun _ => .inr) hx)
    fun r _ _ hr => by
      cases r with
      | ok a => exact hr
      | error e =>
        exact hr.imp_right fun ⟨cause, hreports, hexcuse⟩ =>
          ⟨cause, hreports, hexcuse.resolve_right And.left⟩

end Grounds

/-! ## Drafts in private -/

section Private

variable {Client Body : Type} {names : Uuid → Set String} {size : Body → Nat} {ε α : Type}
  {Reports : StoreError → ε → Prop} {Q : α → Notes Body → Prop} {F : ε → Prop} {cl : Client}

/-- The names of a UUID that was not handed out yet are free, and the draft's own names
belong to UUIDs that were. -/
structure Private (names : Uuid → Set String) (b : Bucket Client Body) (n : Notes Body) : Prop where
  content : n.content = b.objects
  free : ∀ id ∉ b.issued, ∀ path ∈ names id, b.objects path = none
  own : ∀ path ∈ n.own, ∃ id ∈ b.issued, path ∈ names id

section Steps

variable {b : Bucket Client Body} {n : Notes Body} (h : Private names b n)

include h

theorem Private.write (hnames : ∀ {id id' path}, path ∈ names id → path ∈ names id' → id = id')
    (cl : Client) {path : String} (body : Body) (hown : path ∈ n.own) :
    Private names (b.change cl path (some body)) (n.write path body) where
  content := by simp [Notes.write, h.content]
  free := fun id hid path' hpath' => by
    have hne : path' ≠ path := by
      rintro rfl
      obtain ⟨id', hid', hmem⟩ := h.own path' hown
      exact hid (hnames hpath' hmem ▸ hid')
    simpa [hne] using h.free id hid path' hpath'
  own := h.own

theorem Private.draw (id : Uuid) :
    Private names { b with issued := insert id b.issued } (n.draw (names id)) where
  content := h.content
  free := fun id' hid' path hpath => h.free id' (fun hmem => hid' (Or.inr hmem)) path hpath
  own := fun path hpath => by
    rcases hpath with hpath | hpath
    · obtain ⟨id', hid', hmem⟩ := h.own path hpath
      exact ⟨id', Or.inr hid', hmem⟩
    · exact ⟨id, Or.inl rfl, hpath⟩

theorem Private.fresh {id : Uuid} (hid : id ∉ b.issued) : ∀ path ∈ names id, n.content path = none :=
  fun path hpath => (congrFun h.content path).trans (h.free id hid path hpath)

end Steps

/-- A program that gives up is over: a request that failed ends the run. -/
private theorem GivesUp.stops {f : Faults} {cause : StoreError} {P : α → Prop}
    {p : Prog (Cmd Body) Resp (Except ε α)} {b b' : Bucket Client Body} {cs : List (Cmd Body)}
    {r : Except ε α} (h : GivesUp Reports cause p) (hf : f.transport ∨ f.misreport)
    (hrun : Runs (Bucket.Executes f size cl) b p cs r b') :
    (∀ a, r = .ok a → P a) ∧
      ∀ e, r = .error e → F e ∨ (f.transport ∨ f.misreport) ∧ ∃ cause, Reports cause e := by
  obtain ⟨x, rfl, hx⟩ := h
  cases hrun
  refine ⟨fun a ha => absurd ha (by simp), fun e he => ?_⟩
  cases he
  exact .inr ⟨hf, cause, hx⟩

/-- A draft that nobody interrupts keeps its promise. It does not fail but for reasons of its
own, or because a request failed in a way the store is allowed to fail. -/
theorem Drafts.runs_faulty {f : Faults}
    (hnames : ∀ {id id' path}, path ∈ names id → path ∈ names id' → id = id')
    {p : Prog (Cmd Body) Resp (Except ε α)} {n : Notes Body} {b b' : Bucket Client Body}
    {cs : List (Cmd Body)} {r : Except ε α} (h : Drafts names size Reports Q F p n)
    (hprivate : Private names b n)
    (hrun : Runs (Bucket.Executes f size cl) b p cs r b') :
    (∀ a, r = .ok a → ∃ n', n.Grows n' ∧ Private names b' n' ∧ Q a n') ∧
      ∀ e, r = .error e → F e ∨ (f.transport ∨ f.misreport) ∧ ∃ cause, Reports cause e := by
  -- over the run: what is noted is in the bucket before each request
  induction hrun generalizing n with
  | ret b r =>
    refine ⟨?_, ?_⟩
    · rintro a rfl
      exact ⟨n, .refl n, hprivate, h⟩
    · rintro e rfl
      exact .inl h
  | @call b b₁ b' c k answer cs r hexec hrest ih =>
    cases c with
    | get path =>
      obtain ⟨body, hbody, hk, hgives, hbroken⟩ := h
      obtain ⟨hgot, rfl⟩ := hexec
      have hobject := congrFun hprivate.content path ▸ hbody
      cases hgot with
      -- what is found is what was noted
      | found hfound =>
        obtain rfl := Option.some.inj (hobject.symm.trans hfound)
        exact ih hk hprivate
      -- an object that is noted cannot be missing
      | missing hmissing => exact absurd (hobject.symm.trans hmissing) (by simp)
      | interrupted hf hfound =>
        obtain rfl := Option.some.inj (hobject.symm.trans hfound)
        exact (hbroken _).stops (.inl hf) hrest
      | failed hf => exact (hgives _).stops (.inl hf) hrest
    | head path =>
      obtain ⟨body, hbody, hk, hgives⟩ := h
      obtain ⟨hheaded, rfl⟩ := hexec
      have hobject := congrFun hprivate.content path ▸ hbody
      cases hheaded with
      | found hfound =>
        obtain rfl := Option.some.inj (hobject.symm.trans hfound)
        exact ih hk hprivate
      | missing hmissing => exact absurd (hobject.symm.trans hmissing) (by simp)
      | failed hf => exact (hgives _).stops (.inl hf) hrest
    | put path body mode =>
      cases mode with
      | create =>
        obtain ⟨hown, hnone, hk, hgives⟩ := h
        -- nobody else creates an object of this draft
        have hadmits : b.Admits path .create := (congrFun hprivate.content path).symm.trans hnone
        have hstep := hprivate.write hnames cl body hown
        cases hexec with
        | written _ =>
          obtain ⟨hok, herror⟩ := ih hk hstep
          refine ⟨fun a ha => ?_, herror⟩
          obtain ⟨n', hgrows, hrest⟩ := hok a ha
          exact ⟨n', (Notes.grows_write hown hnone).trans hgrows, hrest⟩
        -- the path is free, so that the write cannot be refused
        | refused _ hrefused => exact absurd hadmits hrefused
        | lost hf => exact (hgives _).stops (.inl hf) hrest
        | unacknowledged hf _ => exact (hgives _).stops (.inl hf) hrest
        -- any other end is that of a failed request
        | delayed hf => exact (hgives _).stops (.inl hf) hrest
        | misreported hf _ _ => exact (hgives _).stops (.inr hf) hrest
        | spurious hf _ => exact (hgives _).stops (.inr hf) hrest
      | update version => exact h.elim
    | delete path => exact h.elim
    | list directory => exact h.elim
    | newV4 =>
      obtain ⟨hfresh, rfl⟩ := hexec
      -- the next part starts with the names of the drawn id
      obtain ⟨hok, herror⟩ := ih (h answer (hprivate.fresh hfresh)) (hprivate.draw answer)
      refine ⟨fun a ha => ?_, herror⟩
      obtain ⟨n', hgrows, hrest⟩ := hok a ha
      exact ⟨n', (Notes.grows_draw n _).trans hgrows, hrest⟩

/-- A draft that nobody interrupts, on a store without faults, keeps its promise, and does
not fail but for reasons of its own. -/
theorem Drafts.runs (hnames : ∀ {id id' path}, path ∈ names id → path ∈ names id' → id = id')
    {p : Prog (Cmd Body) Resp (Except ε α)} {n : Notes Body} {b b' : Bucket Client Body}
    {cs : List (Cmd Body)} {r : Except ε α} (h : Drafts names size Reports Q F p n)
    (hprivate : Private names b n)
    (hrun : Runs (Bucket.Executes Faults.none size cl) b p cs r b') :
    (∀ a, r = .ok a → ∃ n', n.Grows n' ∧ Private names b' n' ∧ Q a n') ∧
      ∀ e, r = .error e → F e := by
  obtain ⟨hok, herror⟩ := h.runs_faulty hnames hprivate hrun
  refine ⟨hok, fun e he => (herror e he).resolve_right ?_⟩
  rintro ⟨hf | hf, -⟩ <;> exact hf

/-- Such a draft does run to its end on UUIDs from any list that is long enough. -/
theorem Drafts.exists_runs_from
    (hnames : ∀ {id id' path}, path ∈ names id → path ∈ names id' → id = id')
    {p : Prog (Cmd Body) Resp (Except ε α)} {n : Notes Body} {b : Bucket Client Body} {N : Nat}
    {ids : List Uuid} (h : Drafts names size Reports Q F p n) (hprivate : Private names b n)
    (hwithin : p.Within N) (hnodup : ids.Nodup) (hlength : N ≤ ids.length)
    (hids : ∀ id ∈ ids, id ∉ b.issued) :
    ∃ cs r b', Runs (Bucket.Executes Faults.none size cl) b p cs r b' ∧
      ∀ id ∈ b'.issued, id ∈ b.issued ∨ id ∈ ids := by
  -- over the program: each command has an answer without a fault
  induction p generalizing n b N ids with
  | ret r => exact ⟨[], r, b, .ret b r, fun _ hid => .inl hid⟩
  | call c k ih =>
    obtain ⟨N, rfl, hk⟩ := hwithin
    cases c with
    -- the object is there and is found
    | get path =>
      obtain ⟨body, hbody, hrest, -⟩ := h
      have hobject := congrFun hprivate.content path ▸ hbody
      obtain ⟨cs, r, b', hrun, hdrawn⟩ := ih _ hrest hprivate (hk _) hnodup (by omega) hids
      exact ⟨_, r, b', .call ⟨.found hobject, rfl⟩ hrun, hdrawn⟩
    | head path =>
      obtain ⟨body, hbody, hrest, -⟩ := h
      have hobject := congrFun hprivate.content path ▸ hbody
      obtain ⟨cs, r, b', hrun, hdrawn⟩ := ih _ hrest hprivate (hk _) hnodup (by omega) hids
      exact ⟨_, r, b', .call ⟨.found hobject, rfl⟩ hrun, hdrawn⟩
    -- the path is free, and the write is accepted
    | put path body mode =>
      cases mode with
      | create =>
        obtain ⟨hown, hnone, hrest, -⟩ := h
        have hstep := hprivate.write hnames cl body hown
        obtain ⟨cs, r, b', hrun, hdrawn⟩ := ih _ hrest hstep (hk _) hnodup (by omega) hids
        have hfree := (congrFun hprivate.content path).symm.trans hnone
        exact ⟨_, r, b', .call (.written hfree) hrun, hdrawn⟩
      | update version => exact h.elim
    | delete path => exact h.elim
    | list directory => exact h.elim
    -- the next id of the list is drawn
    | newV4 =>
      cases ids with
      | nil => simp at hlength
      | cons id ids =>
        obtain ⟨hnew, hnodup⟩ := List.nodup_cons.mp hnodup
        have hfresh := hids id (by simp)
        obtain ⟨cs, r, b', hrun, hdrawn⟩ := ih id (h id (hprivate.fresh hfresh)) (hprivate.draw id)
          (hk _) hnodup (by simpa using hlength) fun id' hid' => by
            rintro (rfl | hmem)
            · exact hnew hid'
            · exact hids id' (by simp [hid']) hmem
        refine ⟨_, r, b', .call ⟨hfresh, rfl⟩ hrun, fun id' hid' => ?_⟩
        rcases hdrawn id' hid' with (rfl | hmem) | hmem
        · exact .inr (by simp)
        · exact .inl hmem
        · exact .inr (by simp [hmem])

/-- Such a draft does run to its end, as long as there are UUIDs left for it. -/
theorem Drafts.exists_runs
    (hnames : ∀ {id id' path}, path ∈ names id → path ∈ names id' → id = id')
    {p : Prog (Cmd Body) Resp (Except ε α)} {n : Notes Body} {b : Bucket Client Body} {N : Nat}
    {ids : List Uuid} (h : Drafts names size Reports Q F p n) (hprivate : Private names b n)
    (hwithin : p.Within N) (hnodup : ids.Nodup) (hlength : N ≤ ids.length)
    (hids : ∀ id ∈ ids, id ∉ b.issued) :
    ∃ cs r b', Runs (Bucket.Executes Faults.none size cl) b p cs r b' :=
  let ⟨cs, r, b', hrun, _⟩ := h.exists_runs_from hnames hprivate hwithin hnodup hlength hids
  ⟨cs, r, b', hrun⟩

end Private

/-! ## Fixed answers -/

/-- Run a program against answers that are fixed in advance. -/
def Prog.eval {Cmd : Type} {Resp : Cmd → Type} {α : Type} (answer : (c : Cmd) → Resp c) :
    Prog Cmd Resp α → α
  | .ret a => a
  | .call c k => (k (answer c)).eval answer

theorem Prog.returns_eval {Cmd : Type} {Resp : Cmd → Type} {α : Type}
    (answer : (c : Cmd) → Resp c) (p : Prog Cmd Resp α) : p.Returns (p.eval answer) := by
  induction p with
  | ret a => exact .ret a
  | call c k ih => exact .call (answer c) (ih (answer c))

/-- A bucket frozen at one moment: how it answers reads. -/
def frozen {Body : Type} (size : Body → Nat) (objects : String → Option Body) :
    (c : Cmd Body) → Resp c
  | .get path => match objects path with
    | some body => .ok ⟨size body, body, .ok body⟩
    | none => .error .notFound
  | .head path => match objects path with
    | some body => .ok (size body)
    | none => .error .notFound
  | .put _ _ _ => .error .generic
  | .delete _ => .error .generic
  | .list _ => []
  | .newV4 => 0

section Eval

variable {Body : Type} {names : Uuid → Set String} {size : Body → Nat} {ε α : Type}
  {Reports : StoreError → ε → Prop} {Q : α → Notes Body → Prop} {F : ε → Prop}

/-- A draft that only reads computes what it computes against any frozen bucket that has
the objects of its notes. -/
theorem drafts_eval {p : Prog (Cmd Body) Resp (Except ε α)} {n : Notes Body}
    {objects : String → Option Body} (h : Drafts names size Reports Q F p n)
    (hreads : p.All Cmd.Reads)
    (hobjects : ∀ path body, n.content path = some body → objects path = some body) :
    Drafts names size Reports
      (fun a n' => n' = n ∧ Q a n ∧ p.eval (frozen size objects) = .ok a)
      (fun x => F x ∧ p.eval (frozen size objects) = .error x) p n := by
  -- over the program, against the frozen objects
  induction p with
  | ret r =>
    cases r with
    | ok a => exact ⟨rfl, h, rfl⟩
    | error x => exact ⟨h, rfl⟩
  | call c k ih =>
    cases c with
    -- the noted object is also the frozen one
    | get path =>
      obtain ⟨body, hbody, hk, hgives⟩ := h
      refine ⟨body, hbody, ?_, hgives⟩
      have := ih _ hk (hreads.2 _)
      simpa [Prog.eval, frozen, hobjects path body hbody] using this
    | head path =>
      obtain ⟨body, hbody, hk, hgives⟩ := h
      refine ⟨body, hbody, ?_, hgives⟩
      have := ih _ hk (hreads.2 _)
      simpa [Prog.eval, frozen, hobjects path body hbody] using this
    -- the other commands do not read
    | put path body mode => exact hreads.1.elim
    | delete path => exact hreads.1.elim
    | list directory => exact hreads.1.elim
    | newV4 => exact hreads.1.elim

/-- A draft that only reads has a value in any frozen bucket that has the objects of its
notes. -/
theorem Drafts.eval {p : Prog (Cmd Body) Resp (Except ε α)} {n : Notes Body}
    {objects : String → Option Body} (h : Drafts names size Reports Q F p n)
    (hreads : p.All Cmd.Reads)
    (hobjects : ∀ path body, n.content path = some body → objects path = some body) :
    (∃ a, p.eval (frozen size objects) = .ok a ∧ Q a n) ∨
      ∃ e, p.eval (frozen size objects) = .error e ∧ F e := by
  induction p with
  | ret r =>
    cases r with
    | ok a => exact .inl ⟨a, rfl, h⟩
    | error e => exact .inr ⟨e, rfl, h⟩
  | call c k ih =>
    cases c with
    | get path =>
      obtain ⟨body, hbody, hk, -⟩ := h
      simpa [Prog.eval, frozen, hobjects path body hbody] using ih _ hk (hreads.2 _)
    | head path =>
      obtain ⟨body, hbody, hk, -⟩ := h
      simpa [Prog.eval, frozen, hobjects path body hbody] using ih _ hk (hreads.2 _)
    | put path body mode => exact hreads.1.elim
    | delete path => exact hreads.1.elim
    | list directory => exact hreads.1.elim
    | newV4 => exact hreads.1.elim

end Eval

end Interaction

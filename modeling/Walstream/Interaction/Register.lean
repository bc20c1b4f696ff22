import Walstream.Interaction.Bucket

/-!
# One object as a register

Clients that change one object only by conditional writes, each of which makes the next
content from the content that its condition names. Whatever they are told and whenever
their requests take effect, the contents of the object are then a run: every change leads
from the content that was there to one that a step `T` of its author allows.

- `Linked`: the changes of a history form a run from one content to another.
- `Keeps`: a command after which the history is still a run.
- `Register`: a bucket with such a past; `Register.uses` counts what a client has changed
  or may still change.
- `registerArena`: the registers as worlds, for the logic of `Interaction.Worlds`.
-/

namespace Interaction

variable {Client Body : Type}

/-- The condition of a write, on the content of the object. -/
def PutMode.Allows (old : Option Body) : PutMode Body → Prop
  | .create => old = none
  | .update version => old = some version

section Runs

variable (path : String) (T : Client → Option Body → Body → Prop)

/-- The changes lead from content `old` to content `new`, each by a step of its author. -/
def Linked : (old : Option Body) → List (Event Client Body) → (new : Option Body) → Prop
  | old, [], new => old = new
  | old, e :: es, new => e.path = path ∧ e.before path = old ∧
      ∃ body, e.body = some body ∧ T e.client old body ∧ Linked (some body) es new

variable {path T}

theorem linked_append {es es' : List (Event Client Body)} {old new : Option Body} :
    Linked path T old (es ++ es') new ↔
      ∃ mid, Linked path T old es mid ∧ Linked path T mid es' new := by
  induction es generalizing old with
  | nil => simp [Linked]
  | cons e es ih =>
    simp only [List.cons_append, Linked, ih]
    constructor
    · rintro ⟨hpath, hbefore, body, hbody, hT, mid, hes, hes'⟩
      exact ⟨mid, ⟨hpath, hbefore, body, hbody, hT, hes⟩, hes'⟩
    · rintro ⟨mid, ⟨hpath, hbefore, body, hbody, hT, hes⟩, hes'⟩
      exact ⟨hpath, hbefore, body, hbody, hT, mid, hes, hes'⟩

/-- The changes and the content they start from determine the content they end in. -/
theorem Linked.unique {es : List (Event Client Body)} {old new new' : Option Body}
    (h : Linked path T old es new) (h' : Linked path T old es new') : new = new' := by
  induction es generalizing old with
  | nil => exact h.symm.trans h'
  | cons e es ih =>
    obtain ⟨-, -, body, hbody, -, h⟩ := h
    obtain ⟨-, -, body', hbody', -, h'⟩ := h'
    obtain rfl : body = body' := by simpa [hbody] using hbody'
    exact ih h h'

theorem Linked.step {es : List (Event Client Body)} {old new : Option Body}
    (h : Linked path T old es new) {e : Event Client Body} (he : e ∈ es) :
    ∃ body, e.body = some body ∧ T e.client (e.before path) body := by
  induction es generalizing old with
  | nil => cases he
  | cons e' es ih =>
    obtain ⟨-, hbefore, body, hbody, hT, h⟩ := h
    rcases List.mem_cons.mp he with rfl | he
    · exact ⟨body, hbody, hbefore ▸ hT⟩
    · exact ih h he

theorem Linked.mono {T' : Client → Option Body → Body → Prop}
    (hT : ∀ cl old new, T cl old new → T' cl old new) {es : List (Event Client Body)}
    {old new : Option Body} (h : Linked path T old es new) : Linked path T' old es new := by
  induction es generalizing old with
  | nil => exact h
  | cons e es ih =>
    obtain ⟨hpath, hbefore, body, hbody, hstep, h⟩ := h
    exact ⟨hpath, hbefore, body, hbody, hT _ _ _ hstep, ih h⟩

/-- The content after a change is the one that its author wrote. -/
theorem Linked.last {es : List (Event Client Body)} {old new : Option Body}
    (h : Linked path T old es new) (hes : es ≠ []) :
    ∃ cl before body, new = some body ∧ T cl before body := by
  induction es generalizing old with
  | nil => exact (hes rfl).elim
  | cons e es ih =>
    obtain ⟨-, -, body, -, hT, h⟩ := h
    cases es with
    | nil => exact ⟨e.client, old, body, h.symm, hT⟩
    | cons e' es => exact ih h (List.cons_ne_nil _ _)

section Ranked

variable {L : Type} [Preorder L] {rank : Option Body → L}

/-- A rank that every step raises is raised by every run. -/
theorem Linked.rank_le (hT : ∀ cl old new, T cl old new → rank old < rank (some new))
    {es : List (Event Client Body)} {old new : Option Body} (h : Linked path T old es new) :
    rank old ≤ rank new := by
  induction es generalizing old with
  | nil => exact (congrArg rank h).le
  | cons e es ih =>
    obtain ⟨-, -, body, -, hstep, h⟩ := h
    exact (hT _ _ _ hstep).le.trans (ih h)

theorem Linked.rank_mem (hT : ∀ cl old new, T cl old new → rank old < rank (some new))
    {es : List (Event Client Body)} {old new : Option Body} (h : Linked path T old es new)
    {e : Event Client Body} (he : e ∈ es) : rank old < rank e.body ∧ rank e.body ≤ rank new := by
  induction es generalizing old with
  | nil => cases he
  | cons e' es ih =>
    obtain ⟨-, -, body, hbody, hstep, h⟩ := h
    rcases List.mem_cons.mp he with rfl | he
    · rw [hbody]
      exact ⟨hT _ _ _ hstep, h.rank_le hT⟩
    · exact ⟨(hT _ _ _ hstep).trans (ih h he).1, (ih h he).2⟩

/-- Two changes of a run whose contents have the same rank are the same. -/
theorem Linked.rank_inj (hT : ∀ cl old new, T cl old new → rank old < rank (some new))
    {es : List (Event Client Body)} {old new : Option Body} (h : Linked path T old es new)
    {e e' : Event Client Body} (he : e ∈ es) (he' : e' ∈ es) (hrank : rank e.body = rank e'.body) :
    e = e' := by
  induction es generalizing old with
  | nil => cases he
  | cons e₀ es ih =>
    obtain ⟨-, -, body, hbody, -, h⟩ := h
    rcases List.mem_cons.mp he with rfl | hmem <;> rcases List.mem_cons.mp he' with rfl | hmem'
    · rfl
    · have := (h.rank_mem hT hmem').1
      rw [← hrank, hbody] at this
      exact (lt_irrefl _ this).elim
    · have := (h.rank_mem hT hmem).1
      rw [hrank, hbody] at this
      exact (lt_irrefl _ this).elim
    · exact ih h hmem hmem'

end Ranked

end Runs

/-! ## Registers -/

section Registers

variable (path : String) (T : Client → Option Body → Body → Prop)

/-- Commands that change the object by steps of the client only, and nothing else. -/
def Keeps (cl : Client) : Cmd Body → Prop
  | .put p body mode => p = path ∧ ∀ old, mode.Allows old → T cl old body
  | .delete _ => False
  | .get _ | .head _ | .list _ | .newV4 => True

/-- What `Keeps` asks of a request under way. -/
def Request.Keeps : Request Client Body → Prop
  | .put cl p body mode => p = path ∧ ∀ old, mode.Allows old → T cl old body
  | .delete _ _ => False

/-- The client of a request. -/
def Request.client : Request Client Body → Client
  | .put cl _ _ _ => cl
  | .delete cl _ => cl

/-- The object has changed from `start` on by steps of the clients only, and so it will by
the requests under way. -/
structure Register (start : Option Body) (b : Bucket Client Body) : Prop where
  linked : Linked path T start b.history (b.objects path)
  pending : ∀ req ∈ b.inFlight, req.Keeps path T

variable {path T} {start : Option Body} {b b' : Bucket Client Body}

theorem register_initial (objects : String → Option Body) (issued : Set Uuid) :
    Register path T (objects path) (Bucket.initial objects issued : Bucket Client Body) :=
  ⟨rfl, by simp [Bucket.initial]⟩

theorem Register.change (h : Register path T start b) {cl : Client} {body : Body}
    (hT : T cl (b.objects path) body) : Register path T start (b.change cl path (some body)) where
  linked := by
    rw [Bucket.change_history, linked_append]
    exact ⟨b.objects path, h.linked, rfl, rfl, body, rfl, hT, by simp [Linked]⟩
  pending := h.pending

theorem Register.dropRequest (h : Register path T start b) {l₁ l₂ : List (Request Client Body)}
    {req : Request Client Body} (hreq : b.inFlight = l₁ ++ req :: l₂) :
    Register path T start { b with inFlight := l₁ ++ l₂ } where
  linked := h.linked
  pending r hr := by
    apply h.pending r
    rw [hreq]
    rcases List.mem_append.mp hr with hr | hr
    · exact List.mem_append_left _ hr
    · exact List.mem_append_right _ (List.mem_cons_of_mem _ hr)

theorem Register.send (h : Register path T start b) {req : Request Client Body}
    (hreq : req.Keeps path T) : Register path T start (b.send req) where
  linked := h.linked
  pending r hr := by
    rcases List.mem_cons.mp hr with rfl | hr
    · exact hreq
    · exact h.pending r hr

/-- The write of a command that keeps to the steps is one, wherever its condition holds. -/
theorem step_of_admits {p : String} {body : Body} {mode : PutMode Body} {cl : Client}
    (hkeeps : Keeps path T cl (.put p body mode)) (h : b.Admits p mode) :
    p = path ∧ T cl (b.objects path) body := by
  obtain ⟨rfl, hT⟩ := hkeeps
  refine ⟨rfl, hT _ ?_⟩
  cases mode with
  | create => exact h
  | update version => exact h

/-- An acknowledged write has taken effect. -/
theorem Put.acknowledged {f : Faults} {cl : Client} {p : String} {body version : Body}
    {mode : PutMode Body} (h : Put f cl b p body mode (.ok version) b') :
    b.Admits p mode ∧ b' = b.change cl p (some body) := by
  cases h with
  | written hadm => exact ⟨hadm, rfl⟩

/-! ## What a client has done and may still do -/

variable [DecidableEq Client]

/-- How many changes of the register are the client's, those under way included. -/
def Bucket.uses (cl : Client) (b : Bucket Client Body) : Nat :=
  b.history.countP (·.client = cl) + b.inFlight.countP (·.client = cl)

theorem uses_change (cl cl' : Client) (p : String) (body : Option Body) :
    (b.change cl' p body).uses cl = b.uses cl + if cl' = cl then 1 else 0 := by
  simp only [Bucket.uses, Bucket.change_history, Bucket.change_inFlight, List.countP_append,
    List.countP_singleton, decide_eq_true_eq]
  omega

theorem uses_send (cl : Client) (req : Request Client Body) :
    (b.send req).uses cl = b.uses cl + if req.client = cl then 1 else 0 := by
  simp only [Bucket.uses, Bucket.send, List.countP_cons, decide_eq_true_eq]
  omega

theorem uses_drop (cl : Client) {req : Request Client Body} {l₁ l₂ : List (Request Client Body)}
    (h : b.inFlight = l₁ ++ req :: l₂) :
    Bucket.uses cl { b with inFlight := l₁ ++ l₂ } + (if req.client = cl then 1 else 0) =
      b.uses cl := by
  simp only [Bucket.uses, h, List.countP_append, List.countP_cons, decide_eq_true_eq]
  omega

/-- One bucket may come after the other one: the past is kept. -/
def Bucket.Precedes (b b' : Bucket Client Body) : Prop := b.history <+: b'.history

theorem Register.put (h : Register path T start b) {f : Faults} {cl : Client} {p : String}
    {body : Body} {mode : PutMode Body} {r : Except StoreError Body}
    (hkeeps : Keeps path T cl (.put p body mode)) (hput : Put f cl b p body mode r b') :
    Register path T start b' ∧ b.Precedes b' ∧ ∀ cl', cl' ≠ cl → b'.uses cl' ≤ b.uses cl' := by
  have hwrite : ∀ hadm : b.Admits p mode, Register path T start (b.change cl p (some body)) ∧
      b.Precedes (b.change cl p (some body)) ∧
      ∀ cl', cl' ≠ cl → (b.change cl p (some body)).uses cl' ≤ b.uses cl' := by
    intro hadm
    obtain ⟨rfl, hT⟩ := step_of_admits hkeeps hadm
    refine ⟨h.change hT, List.prefix_append .., fun cl' hcl' => ?_⟩
    rw [uses_change, if_neg hcl'.symm]
    exact le_rfl
  cases hput with
  | written hadm => exact hwrite hadm
  | refused | lost | spurious => exact ⟨h, List.prefix_rfl, fun _ _ => le_rfl⟩
  | unacknowledged _ hadm => exact hwrite hadm
  | delayed hf =>
    refine ⟨h.send hkeeps, List.prefix_rfl, fun cl' hcl' => ?_⟩
    rw [uses_send, if_neg (show (Request.put cl p body mode).client ≠ cl' from Ne.symm hcl')]
    exact le_rfl
  | misreported _ _ hadm => exact hwrite hadm

theorem Register.delivered (h : Register path T start b) (hdel : b.Delivered b') :
    Register path T start b' ∧ b.Precedes b' ∧ ∀ cl, b'.uses cl ≤ b.uses cl := by
  cases hdel with
  | @put cl p body mode l₁ l₂ hreq hadm =>
    have hkeeps : Keeps path T cl (.put p body mode) :=
      h.pending (.put cl p body mode) (hreq ▸ List.mem_append_right _ (List.mem_cons_self ..))
    obtain ⟨rfl, hT⟩ := step_of_admits hkeeps hadm
    refine ⟨(h.dropRequest hreq).change hT, List.prefix_append .., fun cl' => ?_⟩
    rw [uses_change, ← uses_drop cl' hreq]
    exact le_rfl
  | refused hreq =>
    refine ⟨h.dropRequest hreq, List.prefix_rfl, fun cl' => ?_⟩
    rw [← uses_drop cl' hreq]
    exact Nat.le_add_right ..
  | @delete cl p l₁ l₂ hreq =>
    have hkeeps : (Request.delete cl p).Keeps path T :=
      h.pending _ (hreq ▸ List.mem_append_right _ (List.mem_cons_self ..))
    exact False.elim hkeeps

theorem Register.executes (h : Register path T start b) {f : Faults} {size : Body → Nat}
    {cl : Client} {c : Cmd Body} {r : Resp c} (hkeeps : Keeps path T cl c)
    (hexec : Bucket.Executes f size cl c b r b') :
    Register path T start b' ∧ b.Precedes b' ∧ ∀ cl', cl' ≠ cl → b'.uses cl' ≤ b.uses cl' := by
  cases c with
  | get p | head p | list p =>
    obtain ⟨-, rfl⟩ := hexec
    exact ⟨h, List.prefix_rfl, fun _ _ => le_rfl⟩
  | put p body mode => exact h.put hkeeps hexec
  | delete p => exact False.elim hkeeps
  | newV4 =>
    obtain ⟨-, rfl⟩ := hexec
    exact ⟨⟨h.linked, h.pending⟩, List.prefix_rfl, fun _ _ => le_rfl⟩

end Registers

/-! ## Clients of a register -/

/-- A register as a world. -/
structure RegisterWorld (path : String) (T : Client → Option Body → Body → Prop)
    (start : Option Body) where
  bucket : Bucket Client Body
  sound : Register path T start bucket

variable {path : String} {T : Client → Option Body → Body → Prop} {start : Option Body}

instance : Preorder (RegisterWorld path T start) where
  le w w' := w.bucket.Precedes w'.bucket
  le_refl _ := List.prefix_rfl
  le_trans _ _ _ := List.IsPrefix.trans

/-- The content of the object. -/
def RegisterWorld.content (w : RegisterWorld path T start) : Option Body := w.bucket.objects path

/-- Later contents come from earlier ones by steps of the clients. -/
theorem RegisterWorld.linked_of_le {w w' : RegisterWorld path T start} (h : w ≤ w') :
    ∃ es, w'.bucket.history = w.bucket.history ++ es ∧ Linked path T w.content es w'.content := by
  obtain ⟨es, hes⟩ := h
  have hlinked := w'.sound.linked
  rw [← hes, linked_append] at hlinked
  obtain ⟨mid, hfirst, hsecond⟩ := hlinked
  obtain rfl := hfirst.unique w.sound.linked
  exact ⟨es, hes.symm, hsecond⟩

variable [DecidableEq Client]

/-- One client of a register among others. -/
def registerArena (path : String) (T : Client → Option Body → Body → Prop) (start : Option Body)
    (f : Faults) (size : Body → Nat) (cl : Client) :
    Arena (Cmd Body) Resp (Bucket Client Body) (RegisterWorld path T start) where
  view := RegisterWorld.bucket
  exec := Bucket.Executes f size cl
  rely w w' := w ≤ w' ∧ w'.bucket.uses cl ≤ w.bucket.uses cl
  guarantee w w' := w ≤ w' ∧ ∀ cl', cl' ≠ cl → w'.bucket.uses cl' ≤ w.bucket.uses cl'
  rely_refl _ := ⟨le_rfl, le_rfl⟩
  rely_trans h h' := ⟨h.1.trans h'.1, h'.2.trans h.2⟩
  rely_le h := h.1
  guarantee_refl _ := ⟨le_rfl, fun _ _ => le_rfl⟩
  guarantee_le h := h.1

/-- One request of a fallible program. -/
def request {ε : Type} (c : Cmd Body) : ExceptT ε (Prog (Cmd Body) Resp) (Resp c) :=
  ExceptT.lift (Prog.perform c)

/-- `?` on a result that needs no store. -/
def ofResult {ε α : Type} (r : Except ε α) : ExceptT ε (Prog (Cmd Body) Resp) α :=
  ExceptT.mk (pure r)

/-- Clients that run a program each, on a store with these faults. -/
def storeSystem {α : Type} (f : Faults) (size : Body → Nat)
    (program : Client → Prog (Cmd Body) Resp α) :
    System Client (Cmd Body) Resp (Bucket Client Body) α where
  program := program
  exec := Bucket.Executes f size
  environment := Bucket.Delivered

/-- Commands that can always be answered. -/
def Cmd.Plain : Cmd Body → Prop
  | .get _ | .head _ | .put _ _ _ | .delete _ => True
  | .list _ | .newV4 => False

omit [DecidableEq Client] in
theorem exists_executes {f : Faults} {size : Body → Nat} {cl : Client} {c : Cmd Body}
    (b : Bucket Client Body) (h : c.Plain) : ∃ r b', Bucket.Executes f size cl c b r b' := by
  cases c with
  | get p =>
    cases hp : b.objects p with
    | none => exact ⟨_, b, .missing hp, rfl⟩
    | some body => exact ⟨_, b, .found hp, rfl⟩
  | head p =>
    cases hp : b.objects p with
    | none => exact ⟨_, b, .missing hp, rfl⟩
    | some body => exact ⟨_, b, .found hp, rfl⟩
  | put p body mode =>
    by_cases hadm : b.Admits p mode
    · exact ⟨_, _, .written hadm⟩
    · exact ⟨_, _, .refused (e := .precondition) trivial hadm⟩
  | delete p =>
    cases hp : b.objects p with
    | none => exact ⟨_, b, .absent hp _ (.inr rfl)⟩
    | some body => exact ⟨_, _, .removed hp⟩
  | list p => exact h.elim
  | newV4 => exact h.elim

section Verified

variable {f : Faults} {size : Body → Nat} {cl : Client} {α : Type}

theorem wp_perform {c : Cmd Body} {Q : Resp c → RegisterWorld path T start → Prop}
    {w : RegisterWorld path T start} (hkeeps : Keeps path T cl c)
    (h : ∀ w', w ≤ w' → w'.bucket.uses cl ≤ w.bucket.uses cl → ∀ r w'', w' ≤ w'' →
      Bucket.Executes f size cl c w'.bucket r w''.bucket → Q r w'') :
    (registerArena path T start f size cl).wp (Prog.perform c) Q w := by
  rintro w' ⟨hle, huses⟩ r b hexec
  obtain ⟨hreg, hprec, hothers⟩ := w'.sound.executes hkeeps hexec
  exact ⟨⟨b, hreg⟩, ⟨hprec, hothers⟩, rfl, h w' hle huses r ⟨b, hreg⟩ hprec hexec⟩

theorem ends_request {ε : Type} {F : ε → RegisterWorld path T start → Prop} {c : Cmd Body}
    {Q : Resp c → RegisterWorld path T start → Prop} {w : RegisterWorld path T start}
    (hkeeps : Keeps path T cl c)
    (h : ∀ w', w ≤ w' → w'.bucket.uses cl ≤ w.bucket.uses cl → ∀ r w'', w' ≤ w'' →
      Bucket.Executes f size cl c w'.bucket r w''.bucket → Q r w'') :
    (registerArena path T start f size cl).Ends (request c) w Q F :=
  Arena.ends_lift (wp_perform hkeeps h)

theorem ends_ofResult {ε : Type} {F : ε → RegisterWorld path T start → Prop} {r : Except ε α}
    {Q : α → RegisterWorld path T start → Prop} {w : RegisterWorld path T start}
    (hok : ∀ a, r = .ok a → Q a w) (herror : ∀ e, r = .error e → F e w) :
    (registerArena path T start f size cl).Ends (ofResult r) w Q F := by
  cases r with
  | ok a => exact hok a rfl
  | error e => exact herror e rfl

theorem register_compatible (program : Client → Prog (Cmd Body) Resp α) :
    System.Compatible (storeSystem f size program) (RegisterWorld.bucket : RegisterWorld path T start → _)
      (registerArena path T start f size) where
  view_eq _ := rfl
  exec_eq _ := rfl
  guarantee h hcl := ⟨h.1, h.2 _ hcl⟩
  environment {w s} hdel := by
    obtain ⟨hreg, hprec, huses⟩ := w.sound.delivered hdel
    exact ⟨⟨s, hreg⟩, rfl, hprec, fun cl => ⟨hprec, huses cl⟩⟩

variable {program : Client → Prog (Cmd Body) Resp α}
  {Post : Client → Bucket Client Body → α → RegisterWorld path T start → Prop}

/-- Clients that keep their promises alone keep them in company: from the start on, and
from every configuration in which they do. -/
theorem register_steps
    (hprog : ∀ cl (w : RegisterWorld path T start), w.bucket.uses cl = 0 →
      (registerArena path T start f size cl).wp (program cl) (Post cl w.bucket) w)
    (hpost : ∀ cl s a (w w' : RegisterWorld path T start), w ≤ w' → w'.bucket.uses cl ≤ w.bucket.uses cl →
      Post cl s a w → Post cl s a w')
    {cfg cfg' : Config Client (Cmd Body) Resp (Bucket Client Body) α} {w : RegisterWorld path T start}
    (h : System.Verified (storeSystem f size program) RegisterWorld.bucket (registerArena path T start f size)
      (fun cl w => w.bucket.uses cl = 0) Post cfg w)
    (hsteps : Relation.ReflTransGen (storeSystem f size program).Step cfg cfg') :
    ∃ w', w ≤ w' ∧ System.Verified (storeSystem f size program) RegisterWorld.bucket
      (registerArena path T start f size) (fun cl w => w.bucket.uses cl = 0) Post cfg' w' :=
  System.steps_world (register_compatible program) hprog
    (fun _ _ _ hrely hzero => Nat.le_zero.mp (hzero ▸ hrely.2))
    (fun cl s a w w' hrely => hpost cl s a w w' hrely.1 hrely.2) h hsteps

end Verified

end Interaction

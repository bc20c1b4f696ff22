import Walstream.Interaction.Bucket
import Walstream.Interaction.Transcripts

/-!
# Objects that are created once

Some objects are only ever created, never replaced or deleted: whoever finds one finds what
everybody else will find, and of many clients that try to create it at most one succeeds.
A program needs little for this. Its commands are `Cmd.Founds`: of the object they do
nothing but create it, with a content that `P` admits.

- `Foundation`: a bucket in which the object has been created at most once. As worlds these
  are ordered by their pasts, and the content of the object stays.
- `Foundation.executes`, `Foundation.delivered`: every such command, and every request that
  arrives late, leads from one of them to a later one.
- `foundationArena`: the logic of `Interaction.Worlds` on them. Nobody relies on more than the
  order, so a program that keeps to `Cmd.Founds` needs no proof of its own (`Obeys.ends`).
-/

namespace Interaction

variable {Client Body : Type}

/-- The command leaves the object alone, or creates it with an admitted content. -/
def Cmd.Founds (path : String) (P : Body → Prop) : Cmd Body → Prop
  | .put p body mode => p = path → mode = .create ∧ P body
  | .delete p => p ≠ path
  | .get _ | .head _ | .list _ | .newV4 => True

/-- What `Cmd.Founds` asks of a request under way. -/
def Request.Founds (path : String) (P : Body → Prop) : Request Client Body → Prop
  | .put _ p body mode => p = path → mode = .create ∧ P body
  | .delete _ p => p ≠ path

/-- How often the object has changed. -/
def Bucket.changesOf (path : String) (b : Bucket Client Body) : Nat :=
  b.history.countP (·.path = path)

/-- A bucket in which the object was created at most once and has not changed since. -/
structure Foundation (Client : Type) {Body : Type} (path : String) (P : Body → Prop) where
  bucket : Bucket Client Body
  admitted : ∀ body, bucket.objects path = some body → P body
  pending : ∀ req ∈ bucket.inFlight, req.Founds path P
  once : bucket.changesOf path = 0 ∨ bucket.changesOf path = 1 ∧ bucket.objects path ≠ none

namespace Foundation

variable {path : String} {P : Body → Prop}

/-- The object. -/
def content (w : Foundation Client path P) : Option Body := w.bucket.objects path

/-- A later bucket has a longer past, and the object if it was there. -/
instance : Preorder (Foundation Client path P) where
  le w w' := w.bucket.history <+: w'.bucket.history ∧
    ∀ body, w.content = some body → w'.content = some body
  le_refl _ := ⟨List.prefix_rfl, fun _ => id⟩
  le_trans _ _ _ h h' := ⟨h.1.trans h'.1, fun body hb => h'.2 body (h.2 body hb)⟩

variable {w w' : Foundation Client path P}

theorem content_of_le (h : w ≤ w') {body : Body} (hb : w.content = some body) :
    w'.content = some body := h.2 body hb

theorem content_eq_none_of_le (h : w ≤ w') (hnone : w'.content = none) : w.content = none := by
  cases hb : w.content with
  | none => rfl
  | some body => exact absurd (content_of_le h hb) (by simp [hnone])

/-- The bucket without past, when the content of the object is admitted. -/
def initial (objects : String → Option Body) (issued : Set Uuid)
    (h : ∀ body, objects path = some body → P body) : Foundation Client path P where
  bucket := .initial objects issued
  admitted := h
  pending := by simp [Bucket.initial]
  once := .inl rfl

/-! ## Steps -/

/-- Another object changes. -/
def changeOther (w : Foundation Client path P) (cl : Client) {p : String} (hp : p ≠ path)
    (body : Option Body) : Foundation Client path P where
  bucket := w.bucket.change cl p body
  admitted := by simpa [Function.update_of_ne hp.symm] using w.admitted
  pending := w.pending
  once := by simpa [Bucket.changesOf, hp, Function.update_of_ne hp.symm] using w.once

/-- The object is created. -/
def create (w : Foundation Client path P) (cl : Client) {body : Body} (hP : P body)
    (hnone : w.content = none) : Foundation Client path P where
  bucket := w.bucket.change cl path (some body)
  admitted := by
    intro body' hbody'
    obtain rfl : body = body' := by simpa using hbody'
    exact hP
  pending := w.pending
  once := by
    have hzero : w.bucket.changesOf path = 0 := w.once.resolve_right fun h => h.2 hnone
    right
    unfold Bucket.changesOf at hzero ⊢
    simp [hzero]

/-- A request is dropped from those under way. -/
def drop (w : Foundation Client path P) {l₁ l₂ : List (Request Client Body)}
    {req : Request Client Body} (h : w.bucket.inFlight = l₁ ++ req :: l₂) :
    Foundation Client path P where
  bucket := { w.bucket with inFlight := l₁ ++ l₂ }
  admitted := w.admitted
  pending r hr := w.pending r (by
    rw [h]
    rcases List.mem_append.mp hr with hr | hr
    · exact List.mem_append_left _ hr
    · exact List.mem_append_right _ (List.mem_cons_of_mem _ hr))
  once := w.once

/-- A request is sent. -/
def send (w : Foundation Client path P) {r : Request Client Body} (h : r.Founds path P) :
    Foundation Client path P where
  bucket := w.bucket.send r
  admitted := w.admitted
  pending r hr := by
    rcases List.mem_cons.mp hr with rfl | hr
    · exact h
    · exact w.pending r hr
  once := w.once

theorem le_changeOther (w : Foundation Client path P) (cl : Client) {p : String} (hp : p ≠ path)
    (body : Option Body) : w ≤ w.changeOther cl hp body := by
  refine ⟨List.prefix_append .., fun body' hbody' => ?_⟩
  have heq : (w.changeOther cl hp body).content = w.content := Function.update_of_ne hp.symm _ _
  rw [heq, hbody']

theorem le_create (w : Foundation Client path P) (cl : Client) {body : Body} (hP : P body)
    (hnone : w.content = none) : w ≤ w.create cl hP hnone := by
  refine ⟨List.prefix_append .., fun body' hbody' => ?_⟩
  rw [hnone] at hbody'
  cases hbody'

/-- A write whose condition holds leads to a later bucket. -/
theorem written (w : Foundation Client path P) (cl : Client) {p : String} {body : Body}
    {mode : PutMode Body} (hfounds : Cmd.Founds path P (.put p body mode))
    (hadm : w.bucket.Admits p mode) :
    ∃ w' : Foundation Client path P, w'.bucket = w.bucket.change cl p (some body) ∧ w ≤ w' := by
  by_cases hp : p = path
  · obtain ⟨rfl, hP⟩ := hfounds hp
    subst hp
    exact ⟨w.create cl hP hadm, rfl, w.le_create cl hP hadm⟩
  · exact ⟨w.changeOther cl hp (some body), rfl, w.le_changeOther cl hp _⟩

/-- What a client may do leads to a later bucket. -/
theorem executes (w : Foundation Client path P) {f : Faults} {size : Body → Nat} {cl : Client}
    {c : Cmd Body} {r : Resp c} {b : Bucket Client Body} (hfounds : c.Founds path P)
    (h : Bucket.Executes f size cl c w.bucket r b) :
    ∃ w' : Foundation Client path P, w'.bucket = b ∧ w ≤ w' := by
  -- reads and draws do not touch the object
  cases c with
  | get p | head p | list p =>
    obtain ⟨-, rfl⟩ := h
    exact ⟨w, rfl, le_rfl⟩
  | newV4 =>
    obtain ⟨-, rfl⟩ := h
    exact ⟨⟨{ w.bucket with issued := insert r w.bucket.issued }, w.admitted, w.pending, w.once⟩,
      rfl, List.prefix_rfl, fun _ => id⟩
  -- the write founds the object, or is one of another path
  | put p body mode =>
    have hput : Put f cl w.bucket p body mode r b := h
    cases hput with
    | written hadm => exact w.written cl hfounds hadm
    | refused | lost | spurious => exact ⟨w, rfl, le_rfl⟩
    | unacknowledged _ hadm => exact w.written cl hfounds hadm
    | delayed =>
      exact ⟨w.send (r := .put cl p body mode) hfounds, rfl, List.prefix_rfl, fun _ => id⟩
    | misreported _ _ hadm => exact w.written cl hfounds hadm
  | delete p =>
    have hdeleted : Deleted f cl w.bucket p r b := h
    -- a founded object is never deleted
    have hp : p ≠ path := hfounds
    cases hdeleted with
    | removed => exact ⟨w.changeOther cl hp none, rfl, w.le_changeOther cl hp none⟩
    | absent | lost => exact ⟨w, rfl, le_rfl⟩
    | unacknowledged => exact ⟨w.changeOther cl hp none, rfl, w.le_changeOther cl hp none⟩
    | delayed => exact ⟨w.send (r := .delete cl p) hp, rfl, List.prefix_rfl, fun _ => id⟩

/-- A request that arrives leads to a later bucket. -/
theorem delivered (w : Foundation Client path P) {b : Bucket Client Body}
    (h : w.bucket.Delivered b) : ∃ w' : Foundation Client path P, w'.bucket = b ∧ w ≤ w' := by
  have hle : ∀ {l₁ l₂ : List (Request Client Body)} {req : Request Client Body}
      (hreq : w.bucket.inFlight = l₁ ++ req :: l₂), w ≤ w.drop hreq :=
    fun _ => ⟨List.prefix_rfl, fun _ => id⟩
  cases h with
  | @put cl p body mode l₁ l₂ hreq hadm =>
    have hfounds : Cmd.Founds path P (.put p body mode) :=
      w.pending (.put cl p body mode) (hreq ▸ List.mem_append_right _ List.mem_cons_self)
    obtain ⟨w', hw', hlater⟩ := (w.drop hreq).written cl hfounds hadm
    exact ⟨w', hw', (hle hreq).trans hlater⟩
  | refused hreq => exact ⟨w.drop hreq, rfl, hle hreq⟩
  | @delete cl p l₁ l₂ hreq =>
    have hp : p ≠ path :=
      w.pending (.delete cl p) (hreq ▸ List.mem_append_right _ List.mem_cons_self)
    exact ⟨(w.drop hreq).changeOther cl hp none, rfl,
      (hle hreq).trans ((w.drop hreq).le_changeOther cl hp none)⟩

end Foundation

/-! ## The logic -/

section Logic

variable {path : String} {P : Body → Prop} {f : Faults} {size : Body → Nat} {cl : Client}
  {α ε : Type}

/-- One client among others, all of which keep to `Cmd.Founds`. -/
def foundationArena (Client : Type) {Body : Type} (path : String) (P : Body → Prop) (f : Faults)
    (size : Body → Nat) (cl : Client) :
    Arena (Cmd Body) Resp (Bucket Client Body) (Foundation Client path P) where
  view := Foundation.bucket
  exec := Bucket.Executes f size cl
  rely w w' := w ≤ w'
  guarantee w w' := w ≤ w'
  rely_refl _ := le_rfl
  rely_trans := le_trans
  rely_le := id
  guarantee_refl _ := le_rfl
  guarantee_le := id

variable {w : Foundation Client path P}

/-- One command: what comes after it is verified wherever it may lead. -/
theorem foundation_perform {ε : Type} {F : ε → Foundation Client path P → Prop} {c : Cmd Body}
    {Q : Resp c → Foundation Client path P → Prop} (hfounds : c.Founds path P)
    (h : ∀ w' r w'', w ≤ w' → w' ≤ w'' → Bucket.Executes f size cl c w'.bucket r w''.bucket →
      Q r w'') :
    (foundationArena Client path P f size cl).Ends (ExceptT.lift (Prog.perform c)) w Q F := by
  refine Arena.ends_lift fun w' hw' r b hexec => ?_
  obtain ⟨w'', rfl, hw''⟩ := w'.executes hfounds hexec
  exact ⟨w'', hw'', rfl, h w' r w'' hw' hw'' hexec⟩

/-- A program that keeps to `Cmd.Founds`, whatever it is answered. -/
theorem Obeys.ends {x : ExceptT ε (Prog (Cmd Body) Resp) α} {F : ε → Prop}
    (h : Obeys (Cmd.Founds path P) F x) :
    (foundationArena Client path P f size cl).Ends x w (fun _ _ => True) fun e _ => F e := by
  have hgo : ∀ (p : Prog (Cmd Body) Resp (Except ε α)) (w : Foundation Client path P),
      (∀ log r, p.Talks log r → (∀ t ∈ log, t.command.Founds path P) ∧ ∀ e, r = .error e → F e) →
      (foundationArena Client path P f size cl).wp p (fun r _ => ∀ e, r = .error e → F e) w := by
    intro p
    -- over the program, whatever each request is answered
    induction p with
    | ret r => exact fun w hp => (hp [] r (.ret r)).2
    | call c k ih =>
      intro w hp w' hw' r b hexec
      have hrest : ∀ log r', (k r).Talks log r' →
          (∀ t ∈ log, t.command.Founds path P) ∧ ∀ e, r' = .error e → F e := by
        intro log r' htalks
        obtain ⟨hcommands, herrors⟩ := hp _ r' (.call r htalks)
        exact ⟨fun t ht => hcommands t (List.mem_cons_of_mem _ ht), herrors⟩
      -- some answer exists, so that the command is one of a conversation
      have hfounds : c.Founds path P := by
        obtain ⟨log, r', htalks⟩ := (k r).exists_talks Cmd.answerable
        exact (hp _ r' (.call r htalks)).1 ⟨c, r⟩ List.mem_cons_self
      obtain ⟨w'', rfl, hw''⟩ := w'.executes hfounds hexec
      exact ⟨w'', hw'', rfl, ih r w'' hrest⟩
  refine Arena.wp_mono (hgo x.run w h) fun r w' _ hr => ?_
  cases r with
  | ok a => trivial
  | error e => exact hr e rfl

/-- Clients that keep to `Cmd.Founds` may rely on each other. -/
theorem foundation_compatible {f : Client → Faults} {program : Client → Prog (Cmd Body) Resp α} :
    System.Compatible ⟨program, fun cl => Bucket.Executes (f cl) size cl, Bucket.Delivered⟩
      (Foundation.bucket : Foundation Client path P → _)
      fun cl => foundationArena Client path P (f cl) size cl where
  view_eq _ := rfl
  exec_eq _ := rfl
  guarantee h _ := h
  environment {w b} h := by
    obtain ⟨w', hw', hle⟩ := w.delivered h
    exact ⟨w', hw', hle, fun _ => hle⟩

end Logic

end Interaction

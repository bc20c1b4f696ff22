import Walstream.Interaction.Worlds
import Mathlib.Data.Set.Insert

/-!
# An object store with conditional writes

The store of the model: a bucket of named objects, read and written by any number of
clients. The contents of objects are left abstract (`Body`), and so is the identity of
clients.

What the clients rely on is built into `Exec`:

- a read, a conditional write and a deletion of one object are atomic;
- a version (ETag) is the content, so two versions are equal exactly when the contents are;
- a refused condition writes nothing, unless `Faults.misreport` says otherwise;
- a UUID is never handed out twice.

What they cannot rely on is there as well, as far as `Faults` admits it: requests that
fail, requests that take effect although the client was told otherwise, and requests that
take effect later (`Delivered`).
-/

namespace Interaction

/-- A random identifier. -/
abbrev Uuid := BitVec 128

/-- The answers of the store that are not successes. -/
inductive StoreError where
  | notFound
  | alreadyExists
  | precondition
  /-- Any transport or server failure. -/
  | generic
  deriving DecidableEq, Repr

/-- The two answers to a conditional write whose condition does not hold. -/
def StoreError.IsRefusal : StoreError → Prop
  | .alreadyExists | .precondition => True
  | .notFound | .generic => False

/-- The condition of a write: the object does not exist, or has exactly this version. -/
inductive PutMode (Body : Type) where
  | create
  | update (version : Body)
  deriving DecidableEq, Repr

/-- The answer to a successful GET. The body is a stream and can still break off. -/
structure GetResult (Body : Type) where
  size : Nat
  version : Body
  body : Except StoreError Body

/-- One entry of a listing. -/
structure ObjectMeta where
  location : String
  size : Nat
  deriving DecidableEq, Repr

/-- The requests of a client. -/
inductive Cmd (Body : Type) where
  | get (path : String)
  | head (path : String)
  | put (path : String) (body : Body) (mode : PutMode Body)
  | delete (path : String)
  | list (directory : String)
  | newV4

/-- What each request is answered with. -/
@[reducible] def Resp {Body : Type} : Cmd Body → Type
  | .get _ => Except StoreError (GetResult Body)
  | .head _ => Except StoreError Nat
  | .put _ _ _ => Except StoreError Body
  | .delete _ => Except StoreError Unit
  | .list _ => List (Except StoreError ObjectMeta)
  | .newV4 => Uuid

/-- Every request has an answer. -/
theorem Cmd.answerable {Body : Type} (c : Cmd Body) : Nonempty (Resp c) := by
  cases c with
  | get path => exact ⟨.error .generic⟩
  | head path => exact ⟨.error .generic⟩
  | put path body mode => exact ⟨.error .generic⟩
  | delete path => exact ⟨.error .generic⟩
  | list directory => exact ⟨[]⟩
  | newV4 => exact ⟨0⟩

/-! ## The bucket -/

/-- A request whose client was told it failed, and which may still take effect. -/
inductive Request (Client Body : Type) where
  | put (client : Client) (path : String) (body : Body) (mode : PutMode Body)
  | delete (client : Client) (path : String)

/-- One change of the bucket: all objects before it, and the new content of one of them
(`none` when it was deleted). -/
structure Event (Client Body : Type) where
  client : Client
  path : String
  before : String → Option Body
  body : Option Body

/-- The objects after the change. -/
def Event.after {Client Body : Type} (e : Event Client Body) : String → Option Body :=
  Function.update e.before e.path e.body

/-- The bucket. Only `objects` is state a client can see; `inFlight` are requests under
way; the rest records the past: every version any object had, every UUID handed out, and
every change in order. -/
structure Bucket (Client Body : Type) where
  objects : String → Option Body
  inFlight : List (Request Client Body)
  held : Set (String × Body)
  issued : Set Uuid
  history : List (Event Client Body)

namespace Bucket

variable {Client Body : Type}

/-- A bucket with these objects and no past. -/
def initial (objects : String → Option Body) (issued : Set Uuid) : Bucket Client Body :=
  ⟨objects, [], ∅, issued, []⟩

/-- The condition of a write holds now. -/
def Admits (b : Bucket Client Body) (path : String) : PutMode Body → Prop
  | .create => b.objects path = none
  | .update version => b.objects path = some version

/-- The object has, or once had, this content. -/
def Held (b : Bucket Client Body) (path : String) (body : Body) : Prop :=
  b.objects path = some body ∨ (path, body) ∈ b.held

/-- The object gets a new content (`none`: it is deleted). -/
def change (b : Bucket Client Body) (client : Client) (path : String) (body : Option Body) :
    Bucket Client Body where
  objects := Function.update b.objects path body
  inFlight := b.inFlight
  held := {x | b.Held x.1 x.2}
  issued := b.issued
  history := b.history ++ [⟨client, path, b.objects, body⟩]

/-- The request is on its way. -/
def send (b : Bucket Client Body) (req : Request Client Body) : Bucket Client Body :=
  { b with inFlight := req :: b.inFlight }

/-- The contents of the bucket at every moment of its recorded past, now included. -/
def moments (b : Bucket Client Body) : List (String → Option Body) :=
  b.history.map Event.before ++ [b.objects]

@[simp] theorem change_objects (b : Bucket Client Body) (cl : Client) (path : String)
    (body : Option Body) :
    (b.change cl path body).objects = Function.update b.objects path body := rfl

@[simp] theorem change_inFlight (b : Bucket Client Body) (cl : Client) (path : String)
    (body : Option Body) : (b.change cl path body).inFlight = b.inFlight := rfl

@[simp] theorem change_issued (b : Bucket Client Body) (cl : Client) (path : String)
    (body : Option Body) : (b.change cl path body).issued = b.issued := rfl

@[simp] theorem change_history (b : Bucket Client Body) (cl : Client) (path : String)
    (body : Option Body) :
    (b.change cl path body).history = b.history ++ [⟨cl, path, b.objects, body⟩] := rfl

@[simp] theorem send_objects (b : Bucket Client Body) (req : Request Client Body) :
    (b.send req).objects = b.objects := rfl

@[simp] theorem send_issued (b : Bucket Client Body) (req : Request Client Body) :
    (b.send req).issued = b.issued := rfl

@[simp] theorem send_history (b : Bucket Client Body) (req : Request Client Body) :
    (b.send req).history = b.history := rfl

/-- Since the bucket was `s`, there was a moment at which it had these objects. -/
def During (s b : Bucket Client Body) (objects : String → Option Body) : Prop :=
  ∃ i, s.history.length ≤ i ∧ b.moments[i]? = some objects

theorem During.now {s b : Bucket Client Body} (h : s.history <+: b.history) :
    s.During b b.objects := by
  refine ⟨b.history.length, h.length_le, ?_⟩
  simp [moments]

theorem During.later {s b b' : Bucket Client Body} {objects : String → Option Body}
    (h : s.During b objects) (hb : b.moments <+: b'.moments) : s.During b' objects := by
  obtain ⟨i, hi, hget⟩ := h
  obtain ⟨more, hmore⟩ := hb
  obtain ⟨hlt, -⟩ := List.getElem?_eq_some_iff.mp hget
  exact ⟨i, hi, by rw [← hmore, List.getElem?_append_left hlt, hget]⟩

theorem held_change {b : Bucket Client Body} {cl : Client} {path path' : String}
    {body : Option Body} {body' : Body} (h : (b.change cl path body).Held path' body') :
    b.Held path' body' ∨ body = some body' ∧ path = path' := by
  rcases h with h | h
  · by_cases hp : path' = path
    · subst hp
      exact .inr ⟨by simpa using h, rfl⟩
    · exact .inl (.inl (by simpa [hp] using h))
  · exact .inl h

@[simp] theorem held_send {b : Bucket Client Body} {req : Request Client Body} {path : String}
    {body : Body} : (b.send req).Held path body ↔ b.Held path body := Iff.rfl

end Bucket

/-! ## Effects of requests -/

/-- Which misbehaviour is admitted. -/
structure Faults where
  /-- A request may fail, and take effect or not, now or later. -/
  transport : Prop
  /-- A write may be answered with a refusal whatever happened to it. -/
  misreport : Prop
  /-- A listing may be assembled while the bucket changes: it may miss objects and show
  objects that are already gone. -/
  unsteadyList : Prop

/-- Nothing goes wrong. -/
def Faults.none : Faults := ⟨False, False, False⟩

/-- Anything may go wrong. -/
def Faults.any : Faults := ⟨True, True, True⟩

variable {Client Body : Type}

/-- Answers to a GET. -/
inductive Got (f : Faults) (size : Body → Nat) (b : Bucket Client Body) (path : String) :
    Except StoreError (GetResult Body) → Prop where
  | found {body : Body} (h : b.objects path = some body) :
      Got f size b path (.ok ⟨size body, body, .ok body⟩)
  | missing (h : b.objects path = none) : Got f size b path (.error .notFound)
  | interrupted {body : Body} (hf : f.transport) (h : b.objects path = some body) :
      Got f size b path (.ok ⟨size body, body, .error .generic⟩)
  | failed (hf : f.transport) : Got f size b path (.error .generic)

/-- Answers to a HEAD. -/
inductive Headed (f : Faults) (size : Body → Nat) (b : Bucket Client Body) (path : String) :
    Except StoreError Nat → Prop where
  | found {body : Body} (h : b.objects path = some body) :
      Headed f size b path (.ok (size body))
  | missing (h : b.objects path = none) : Headed f size b path (.error .notFound)
  | failed (hf : f.transport) : Headed f size b path (.error .generic)

/-- Answers to a conditional PUT and what it does to the bucket. -/
inductive Put (f : Faults) (cl : Client) (b : Bucket Client Body) (path : String) (body : Body)
    (mode : PutMode Body) : Except StoreError Body → Bucket Client Body → Prop where
  | written (h : b.Admits path mode) :
      Put f cl b path body mode (.ok body) (b.change cl path (some body))
  | refused {e : StoreError} (he : e.IsRefusal) (h : ¬ b.Admits path mode) :
      Put f cl b path body mode (.error e) b
  | lost (hf : f.transport) : Put f cl b path body mode (.error .generic) b
  | unacknowledged (hf : f.transport) (h : b.Admits path mode) :
      Put f cl b path body mode (.error .generic) (b.change cl path (some body))
  | delayed (hf : f.transport) :
      Put f cl b path body mode (.error .generic) (b.send (.put cl path body mode))
  | misreported {e : StoreError} (hf : f.misreport) (he : e.IsRefusal)
      (h : b.Admits path mode) :
      Put f cl b path body mode (.error e) (b.change cl path (some body))
  | spurious {e : StoreError} (hf : f.misreport) (he : e.IsRefusal) :
      Put f cl b path body mode (.error e) b

/-- Answers to a DELETE and what it does to the bucket. -/
inductive Deleted (f : Faults) (cl : Client) (b : Bucket Client Body) (path : String) :
    Except StoreError Unit → Bucket Client Body → Prop where
  | removed {body : Body} (h : b.objects path = some body) :
      Deleted f cl b path (.ok ()) (b.change cl path none)
  | absent (h : b.objects path = none) (r : Except StoreError Unit)
      (hr : r = .ok () ∨ r = .error .notFound) : Deleted f cl b path r b
  | lost (hf : f.transport) : Deleted f cl b path (.error .generic) b
  | unacknowledged (hf : f.transport) :
      Deleted f cl b path (.error .generic) (b.change cl path none)
  | delayed (hf : f.transport) :
      Deleted f cl b path (.error .generic) (b.send (.delete cl path))

/-- The object lies below the directory. -/
def Below (directory path : String) : Prop := (directory ++ "/").toList <+: path.toList

/-- Answers to a LIST. -/
inductive Listed (f : Faults) (size : Body → Nat) (b : Bucket Client Body) (directory : String) :
    List (Except StoreError ObjectMeta) → Prop where
  | snapshot {metas : List ObjectMeta} (hnodup : (metas.map ObjectMeta.location).Nodup)
      (h : ∀ m : ObjectMeta, m ∈ metas ↔ Below directory m.location ∧
        ∃ body, b.objects m.location = some body ∧ size body = m.size) :
      Listed f size b directory (metas.map .ok)
  | unsteady {items : List (Except StoreError ObjectMeta)} (hf : f.unsteadyList)
      (h : ∀ m : ObjectMeta, .ok m ∈ items → Below directory m.location ∧
        ∃ body, b.Held m.location body ∧ size body = m.size)
      (herr : ∀ e, .error e ∈ items → f.transport ∧ e = .generic) :
      Listed f size b directory items

/-- What each request is answered with, and the bucket it leaves. -/
def Bucket.Executes (f : Faults) (size : Body → Nat) (cl : Client) :
    Exec (Cmd Body) Resp (Bucket Client Body)
  | .get path, b, r, b' => Got f size b path r ∧ b' = b
  | .head path, b, r, b' => Headed f size b path r ∧ b' = b
  | .put path body mode, b, r, b' => Put f cl b path body mode r b'
  | .delete path, b, r, b' => Deleted f cl b path r b'
  | .list directory, b, r, b' => Listed f size b directory r ∧ b' = b
  | .newV4, b, r, b' => r ∉ b.issued ∧ b' = { b with issued := insert r b.issued }

/-- A request that was under way arrives: its condition is checked then, and it takes
effect or not. Requests that never arrive stay under way forever. -/
inductive Bucket.Delivered : Bucket Client Body → Bucket Client Body → Prop where
  | put {b : Bucket Client Body} {cl : Client} {path : String} {body : Body}
      {mode : PutMode Body} {l₁ l₂ : List (Request Client Body)}
      (h : b.inFlight = l₁ ++ .put cl path body mode :: l₂) (hadm : b.Admits path mode) :
      Delivered b ({ b with inFlight := l₁ ++ l₂ }.change cl path (some body))
  | refused {b : Bucket Client Body} {req : Request Client Body}
      {l₁ l₂ : List (Request Client Body)} (h : b.inFlight = l₁ ++ req :: l₂) :
      Delivered b { b with inFlight := l₁ ++ l₂ }
  | delete {b : Bucket Client Body} {cl : Client} {path : String}
      {l₁ l₂ : List (Request Client Body)}
      (h : b.inFlight = l₁ ++ .delete cl path :: l₂) :
      Delivered b ({ b with inFlight := l₁ ++ l₂ }.change cl path none)

/-! ## The recorded past -/

/-- What one request does to the record: nothing, or one more change, which starts from the present
objects. -/
inductive Bucket.Next (b b' : Bucket Client Body) : Prop where
  | same (hobjects : b'.objects = b.objects) (hhistory : b'.history = b.history)
  | changed (e : Event Client Body) (hbefore : e.before = b.objects) (hafter : b'.objects = e.after)
      (hhistory : b'.history = b.history ++ [e])

variable {b b' : Bucket Client Body}

theorem Bucket.Next.change (b : Bucket Client Body) (cl : Client) (path : String)
    (body : Option Body) : b.Next (b.change cl path body) :=
  .changed ⟨cl, path, b.objects, body⟩ rfl rfl rfl

theorem Bucket.Executes.next {f : Faults} {size : Body → Nat} {cl : Client} {c : Cmd Body}
    {r : Resp c} (h : b.Executes f size cl c r b') : b.Next b' := by
  -- reads change nothing
  cases c with
  | get path => exact h.2 ▸ .same rfl rfl
  | head path => exact h.2 ▸ .same rfl rfl
  | list directory => exact h.2 ▸ .same rfl rfl
  | newV4 => exact h.2 ▸ .same rfl rfl
  | put path body mode =>
    -- a write arrives, or it does not
    have hput : Put f cl b path body mode r b' := h
    cases hput with
    | written => exact .change ..
    | refused => exact .same rfl rfl
    | lost => exact .same rfl rfl
    | unacknowledged => exact .change ..
    | delayed => exact .same rfl rfl
    | misreported => exact .change ..
    | spurious => exact .same rfl rfl
  | delete path =>
    have hdeleted : Deleted f cl b path r b' := h
    cases hdeleted with
    | removed => exact .change ..
    | absent => exact .same rfl rfl
    | lost => exact .same rfl rfl
    | unacknowledged => exact .change ..
    | delayed => exact .same rfl rfl

theorem Bucket.Delivered.next (h : b.Delivered b') : b.Next b' := by
  cases h with
  | @put cl path body => exact .changed ⟨cl, path, b.objects, some body⟩ rfl rfl rfl
  | refused => exact .same rfl rfl
  | @delete cl path => exact .changed ⟨cl, path, b.objects, none⟩ rfl rfl rfl

/-- The changes lead from these objects to those: each of them finds what the one before it has
left. -/
inductive Leads : (String → Option Body) → List (Event Client Body) → (String → Option Body) →
    Prop where
  | refl (objects : String → Option Body) : Leads objects [] objects
  | step {objects : String → Option Body} {es : List (Event Client Body)} {e : Event Client Body}
      (h : Leads objects es e.before) : Leads objects (es ++ [e]) e.after

theorem Leads.next {objects : String → Option Body} (h : Leads objects b.history b.objects)
    (hb : b.Next b') : Leads objects b'.history b'.objects := by
  cases hb with
  | same hobjects hhistory => rwa [hobjects, hhistory]
  | changed e hbefore hafter hhistory =>
    rw [hafter, hhistory]
    exact .step (hbefore ▸ h)

/-- The bucket of every moment was the shared state of an earlier configuration. -/
theorem System.reachable_moment [DecidableEq Client] {α : Type}
    {Y : System Client (Cmd Body) Resp (Bucket Client Body) α}
    (hexec : ∀ cl c s r s', Y.exec cl c s r s' → s.Next s')
    (henvironment : ∀ s s', Y.environment s s' → s.Next s') {s : Bucket Client Body}
    (hs : s.history = []) {cfg : Config Client (Cmd Body) Resp (Bucket Client Body) α}
    (h : Y.Reachable s cfg) {i : Nat} {objects : String → Option Body}
    (hi : cfg.shared.moments[i]? = some objects) :
    ∃ cfg', Y.Reachable s cfg' ∧ Relation.ReflTransGen Y.Step cfg' cfg ∧
      cfg'.shared.objects = objects ∧ cfg'.shared.history = cfg.shared.history.take i := by
  -- over the steps, where the history grows by one change at most
  induction h with
  -- at the start there is one moment only
  | refl =>
    have hsingle : (System.initial s : Config Client (Cmd Body) Resp _ α).shared.moments =
        [s.objects] := by
      simp [System.initial, Bucket.moments, hs]
    rw [hsingle, List.getElem?_singleton] at hi
    split at hi
    · cases hi
      exact ⟨_, .refl, .refl, rfl, by simp [System.initial, hs]⟩
    · cases hi
  | @tail cfg₁ cfg₂ hreach hstep ih =>
    have hnext : cfg₁.shared.Next cfg₂.shared := by
      cases hstep with
      | start => exact .same rfl rfl
      | call _ _ h => exact hexec _ _ _ _ _ h
      | environment h => exact henvironment _ _ h
    -- a step without a change has no moment of its own
    cases hnext with
    | same hobjects hhistory =>
      have hmoments : cfg₂.shared.moments = cfg₁.shared.moments := by
        rw [Bucket.moments, Bucket.moments, hobjects, hhistory]
      obtain ⟨cfg', hcfg', hsteps, hobjects', hhistory'⟩ := ih (hmoments ▸ hi)
      exact ⟨cfg', hcfg', hsteps.tail hstep, hobjects', hhistory'.trans (by rw [hhistory])⟩
    -- a change adds one moment at the end
    | changed e hbefore hafter hhistory =>
      have hmoments : cfg₂.shared.moments = cfg₁.shared.moments ++ [cfg₂.shared.objects] := by
        simp [Bucket.moments, hhistory, hbefore]
      have hlength : cfg₁.shared.moments.length = cfg₁.shared.history.length + 1 := by
        simp [Bucket.moments]
      rw [hmoments] at hi
      -- an earlier moment was there before the step, and the last one is that of now
      by_cases hlt : i < cfg₁.shared.moments.length
      · rw [List.getElem?_append_left hlt] at hi
        obtain ⟨cfg', hcfg', hsteps, hobjects', hhistory'⟩ := ih hi
        refine ⟨cfg', hcfg', hsteps.tail hstep, hobjects', hhistory'.trans ?_⟩
        rw [hhistory, List.take_append_of_le_length (by omega)]
      · rw [List.getElem?_append_right (by omega), List.getElem?_singleton] at hi
        split at hi
        · cases hi
          refine ⟨cfg₂, hreach.tail hstep, .refl, rfl, (List.take_of_length_le ?_).symm⟩
          rw [hhistory, List.length_append, List.length_singleton]
          omega
        · cases hi

end Interaction

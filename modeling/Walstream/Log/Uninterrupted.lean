import Walstream.Interaction.Alone
import Walstream.Log.CheckErrors
import Walstream.Log.Selecting

/-!
# Requests that run alone

Pages are written and read by a client that nobody interrupts. Nothing is assumed about the
store it finds: a page that was read is the one that the store answers the reference with, and
a page that was written is read from then on, because it stands under a name that was free.
-/

namespace Walstream.Log

open Interaction

/-- Every object of the first store is in the second one. -/
def Extends (content content' : String → Option Body) : Prop :=
  ∀ path body, content path = some body → content' path = some body

theorem Extends.refl (content : String → Option Body) : Extends content content := fun _ _ h => h

theorem Extends.trans {content content₁ content₂ : String → Option Body}
    (h : Extends content content₁) (h' : Extends content₁ content₂) : Extends content content₂ :=
  fun path body hbody => h' path body (h path body hbody)

theorem extends_update {content : String → Option Body} {path : String} {body : Body}
    (hfree : content path = none) : Extends content (Function.update content path (some body)) := by
  intro path' body' h
  have hne : path' ≠ path := by
    rintro rfl
    simp [hfree] at h
  rwa [Function.update_of_ne hne]

namespace PartitionLog

variable {self : PartitionLog}

/-! ## What the store answers -/

/-- How a page is read: its reference is checked, then the object that it names is fetched, and
then what came is checked. -/
def readDocument {α : Type} (valid : Except LogError Unit) (path : String)
    (accept : GetResult Body → Except LogError α) : Engine α := do
  Engine.check valid
  let result ← Engine.orStore (← Engine.perform (.get path))
  Engine.check (accept result)

theorem readPage_eq (r : PageRef) : self.readPage r =
    readDocument (self.validatePageRef r) (self.crates.pathFrom r.object) (self.acceptPage r) := rfl

theorem readProducerPage_eq (r : ProducerRef) (nextOffset : Int) :
    self.readProducerPage r nextOffset = readDocument (self.validateProducerRef r)
      (self.crates.pathFrom r.object) (self.acceptProducerPage nextOffset r) := rfl

section Answered

variable {content content' : String → Option Body} {r : PageRef} {page page' : Page}

/-- Reading in a store that stands still. -/
theorem evaluate_readDocument {α : Type} {valid : Except LogError Unit} {path : String}
    {accept : GetResult Body → Except LogError α} {a : α} :
    self.evaluate content (readDocument valid path accept) = .ok a ↔ valid = .ok () ∧
      ∃ body, content path = some body ∧ accept ⟨self.crates.size body, body, .ok body⟩ = .ok a := by
  have hperform : self.evaluate content (Engine.perform (.get path)) =
      .ok (frozen self.crates.size content (.get path)) := rfl
  unfold readDocument
  simp only [evaluate_bind, evaluate_check, bind_eq_ok, hperform, Except.ok.injEq, exists_eq_left',
    frozen]
  cases content path with
  | none =>
    constructor
    · rintro ⟨_, -, _, hstore, -⟩
      cases hstore
    · rintro ⟨-, _, hnone, -⟩
      cases hnone
  | some body =>
    constructor
    · rintro ⟨_, hvalid, _, hstore, haccept⟩
      cases hstore
      exact ⟨hvalid, body, rfl, haccept⟩
    · rintro ⟨hvalid, _, hbody, haccept⟩
      cases hbody
      exact ⟨(), hvalid, _, rfl, haccept⟩

/-- The reference is answered with the page: it is valid, and the object that it names holds
what it promises. -/
theorem answered_iff : self.Answered content r page ↔ self.validatePageRef r = .ok () ∧
    ∃ body h, content (self.crates.pathFrom r.object) = some body ∧
      self.acceptPage r ⟨self.crates.size body, body, .ok body⟩ = .ok ⟨page, h⟩ := by
  unfold Answered
  simp only [readPage_eq, evaluate_readDocument]
  constructor
  · rintro ⟨h, hvalid, body, hbody, haccept⟩
    exact ⟨hvalid, body, h, hbody, haccept⟩
  · rintro ⟨hvalid, body, h, hbody, haccept⟩
    exact ⟨h, hvalid, body, hbody, haccept⟩

namespace Answered

theorem check (h : self.Answered content r page) : self.checkPage r page = .ok () := h.1

theorem valid (h : self.Answered content r page) : self.validatePageRef r = .ok () :=
  (answered_iff.mp h).1

theorem unique (h : self.Answered content r page) (h' : self.Answered content r page') :
    page = page' := by
  obtain ⟨_, hread⟩ := h
  obtain ⟨_, hread'⟩ := h'
  rw [hread] at hread'
  exact congrArg Subtype.val (Except.ok.inj hread')

/-- Only the object that the reference names matters. -/
theorem congr (h : self.Answered content r page)
    (hobject : content' (self.crates.pathFrom r.object) = content (self.crates.pathFrom r.object)) :
    self.Answered content' r page := by
  rw [answered_iff] at h ⊢
  rwa [hobject]

theorem mono (h : self.Answered content r page) (hc : Extends content content') :
    self.Answered content' r page := by
  obtain ⟨-, body, -, hbody, -⟩ := answered_iff.mp h
  exact h.congr (by rw [hbody, hc _ _ hbody])

end Answered

end Answered

/-! ## Rules -/

section Alone

variable {Client : Type} {f : Faults} {cl : Client} {b : Bucket Client Body} {α β : Type}

theorem alone_check {exec : Exec (Cmd Body) Resp (Bucket Client Body)} {r : Except LogError α}
    {Q : α → Bucket Client Body → Prop} {E : LogError → Bucket Client Body → Prop}
    (hok : ∀ a, r = .ok a → Q a b) (herror : ∀ e, r = .error e → E e b) :
    Alone exec (Engine.check r) b Q E := by
  cases r with
  | ok a => exact alone_pure (hok a rfl)
  | error e => exact alone_throw (herror e rfl)

theorem alone_check_bind_ok {β : Type} {exec : Exec (Cmd Body) Resp (Bucket Client Body)}
    {r : Except LogError β} {g : β → Engine α} {Q : α → Bucket Client Body → Prop}
    {E : LogError → Bucket Client Body → Prop} {a : β} (hr : r = .ok a)
    (h : Alone exec (g a) b Q E) : Alone exec (do g (← Engine.check r)) b Q E := by
  subst hr
  exact h

/-- `Alone` for the log. -/
abbrev AloneOn (log : PartitionLog) (f : Faults) (cl : Client) (x : Engine α)
    (b : Bucket Client Body) (Q : α → Bucket Client Body → Prop)
    (E : LogError → Bucket Client Body → Prop) : Prop :=
  Alone (Bucket.Executes f log.crates.size cl) x b Q E

/-- Every run of the program that nobody interrupts and that succeeds ends with `Q`. -/
abbrev Leads (log : PartitionLog) (f : Faults) (cl : Client) (x : Engine α)
    (b : Bucket Client Body) (Q : α → Bucket Client Body → Prop) : Prop :=
  log.AloneOn f cl x b Q fun _ _ => True

theorem leads_throw {e : LogError} {Q : α → Bucket Client Body → Prop} :
    self.Leads f cl (throw e) b Q := alone_throw trivial

theorem leads_check_bind {r : Except LogError β} {g : β → Engine α}
    {Q : α → Bucket Client Body → Prop} (h : ∀ a, r = .ok a → self.Leads f cl (g a) b Q) :
    self.Leads f cl (do g (← Engine.check r)) b Q := by
  cases r with
  | ok a => exact h a rfl
  | error e => exact leads_throw

theorem Leads.mono {x : Engine α} {Q Q' : α → Bucket Client Body → Prop}
    (h : self.Leads f cl x b Q) (hQ : ∀ a b', Q a b' → Q' a b') : self.Leads f cl x b Q' :=
  Alone.mono h hQ fun _ _ h => h

/-- An object is created under a name that was free. -/
theorem leads_create {path : String} {body : Body} {g : Body → Engine α}
    {Q : α → Bucket Client Body → Prop}
    (h : ∀ b', b.objects path = none → b'.objects = Function.update b.objects path (some body) →
      self.Leads f cl (g body) b' Q) :
    self.Leads f cl (do g (← Engine.orStore (← Engine.perform (.put path body .create)))) b Q := by
  refine alone_ask fun answer b' hput => ?_
  cases hput with
  | written hadmits => exact h _ hadmits rfl
  | refused _ _ => exact leads_throw
  | lost _ => exact leads_throw
  | unacknowledged _ _ => exact leads_throw
  | delayed _ => exact leads_throw
  | misreported _ _ _ => exact leads_throw
  | spurious _ _ => exact leads_throw

/-! ## One page -/

/-- What was read is what the store answers, if a transfer that breaks off is refused. -/
theorem readDocument_leads {valid : Except LogError Unit} {path : String}
    {accept : GetResult Body → Except LogError α}
    (hbroken : ∀ size body e a, accept ⟨size, body, .error e⟩ ≠ .ok a) :
    self.Leads f cl (readDocument valid path accept) b (fun a b' => b' = b ∧
      self.evaluate b.objects (readDocument valid path accept) = .ok a) := by
  unfold readDocument
  refine leads_check_bind fun _ hvalid => alone_ask ?_
  rintro answer _ ⟨hgot, rfl⟩
  cases hgot with
  | @found body hbody =>
    refine alone_check (fun a ha => ⟨rfl, ?_⟩) fun _ _ => trivial
    exact evaluate_readDocument.mpr ⟨hvalid, body, hbody, ha⟩
  | missing _ => exact leads_throw
  | interrupted _ _ => exact alone_check (fun a ha => absurd ha (hbroken _ _ _ _)) fun _ _ => trivial
  | failed _ => exact leads_throw

/-- A page that was read is the answer to its reference. -/
theorem readPage_leads (r : PageRef) : self.Leads f cl (self.readPage r) b
    (fun p b' => b' = b ∧ self.Answered b.objects r p.1) := by
  rw [readPage_eq]
  refine (readDocument_leads fun size body e p hp => ?_).mono fun p b' hp => ⟨hp.1, p.2, hp.2⟩
  simp [acceptPage, Crates.collectBounded, rejectIf, bind_eq_ok] at hp

/-- A page that was written is the answer to its new reference. -/
theorem writePage_leads (htopic : validateTopic self.topic = .ok ()) {page : Page}
    (hfull : ∀ segments, page = .leaf segments → segments.length = pageEntries) :
    self.Leads f cl (self.writePage page) b (fun r b' => Extends b.objects b'.objects ∧
      self.Answered b'.objects r page ∧ self.newPageBounds page = .ok r.bounds) := by
  unfold writePage
  refine leads_check_bind fun bounds hbounds => ?_
  dsimp only
  -- a page that is too large is not written
  split
  · exact leads_throw
  refine alone_ask ?_
  rintro id b₁ ⟨-, rfl⟩
  -- the reference is valid, and the path is free
  refine leads_check_bind fun _ hvalid => leads_create fun b' hfree hb' => ?_
  refine alone_pure ⟨?_, StoredPage.answered ⟨?_, rfl, rfl, hvalid, ?_, ?_⟩, hbounds⟩
  · rw [hb']
    exact extends_update hfree
  · simp [hb']
  · -- a leaf is read back only when it is full
    rw [checkPage_eq_ok]
    cases page with
    | leaf segments =>
      obtain _ | ⟨first, segments⟩ := segments
      · cases hbounds
      · simp only [newPageBounds, bind_eq_ok, pure, Except.pure, Except.ok.injEq] at hbounds
        obtain ⟨next, hnext, rfl⟩ := hbounds
        simp [readPageBounds, rejectIf, hfull _ rfl, hnext, bind, Except.bind, pure, Except.pure,
          PageRef.bounds]
    | branch children => exact hbounds
  · exact self.pathFrom_named htopic ⟨id, self.indexPath_mem id⟩

end Alone

end PartitionLog

end Walstream.Log

import Walstream.Interaction.Register

/-!
# Clients that take turns

Clients that change their objects by conditional writes, where only one client at a time sends
requests for an object. A request that was sent in an earlier turn can still arrive in a later
one. When every change raises the rank of the content, such a request takes effect only if the
object has not changed since it was sent. Hence the changes of an object come in the order of the
turns, however late requests arrive.

- `Turn`: what a client does to its object in its turn.
- `Orderly`: the changes of each object are a run, and in the order of the turns.
- `turnArena`: a client in its turn, for the logic of `Interaction.Worlds`.
-/

namespace Interaction

variable {Client Body : Type} {K L : Type} [Preorder K] [Preorder L]

section Turns

variable (stamp : Client → K) (rank : Option Body → L) (T : Client → Option Body → Body → Prop)

/-- What a client does to its object in its turn: it looks, changes the object by one of its
steps, or sends a request for a step from a content that is no later than the present one. -/
inductive Turn (cl : Client) (path : String) (b : Bucket Client Body) :
    Bucket Client Body → Prop where
  | look {b' : Bucket Client Body} (objects : b'.objects = b.objects)
      (inFlight : b'.inFlight = b.inFlight) (history : b'.history = b.history) : Turn cl path b b'
  | change {body : Body} (step : T cl (b.objects path) body) :
      Turn cl path b (b.change cl path (some body))
  | send {body : Body} {mode : PutMode Body}
      (step : ∀ old, mode.Allows old → T cl old body ∧ rank old ≤ rank (b.objects path)) :
      Turn cl path b (b.send (.put cl path body mode))

/-- A request for a step from a content that is no later than the present one. If it is the
present one, nobody whose turn was later has changed the object. -/
def Request.Timely (b : Bucket Client Body) : Request Client Body → Prop
  | .put cl path body mode => ∀ old, mode.Allows old →
      T cl old body ∧ rank old ≤ rank (b.objects path) ∧
        (b.objects path = old → ∀ e ∈ b.history, e.path = path → stamp e.client ≤ stamp cl)
  | .delete _ _ => False

/-- The changes of every object are a run of steps, in the order of the turns, and no request under
way can break this. -/
structure Orderly (start : String → Option Body) (b : Bucket Client Body) : Prop where
  linked : ∀ path, Linked path T (start path) (b.history.filter (·.path = path)) (b.objects path)
  ordered : b.history.Pairwise fun e e' => e.path = e'.path → stamp e.client ≤ stamp e'.client
  pending : ∀ req ∈ b.inFlight, req.Timely stamp rank T b

variable {stamp rank T} {start : String → Option Body} {b b' : Bucket Client Body}
  {cl : Client} {path : String} {body : Body}

theorem orderly_initial (objects : String → Option Body) (issued : Set Uuid) :
    Orderly stamp rank T objects (Bucket.initial objects issued) where
  linked := fun _ => rfl
  ordered := .nil
  pending := fun _ hreq => absurd hreq List.not_mem_nil

/-- A client changes its object, and nobody whose turn was later has changed it before. -/
theorem Orderly.change (hT : ∀ cl old new, T cl old new → rank old < rank (some new))
    (h : Orderly stamp rank T start b) (hstep : T cl (b.objects path) body)
    (hlast : ∀ e ∈ b.history, e.path = path → stamp e.client ≤ stamp cl) :
    Orderly stamp rank T start (b.change cl path (some body)) where
  -- the last change of this object leads from what was there
  linked := fun p => by
    rw [Bucket.change_history, List.filter_append, linked_append]
    have hrun := h.linked p
    by_cases hp : path = p
    · subst hp
      refine ⟨_, hrun, ?_⟩
      simp [Linked, hstep]
    · -- the change is one of another object
      refine ⟨_, hrun, ?_⟩
      simp [Linked, hp, Ne.symm hp]
  ordered := by
    rw [Bucket.change_history]
    apply List.pairwise_append.mpr
    -- nobody with a later turn has changed the object before
    refine ⟨h.ordered, List.pairwise_singleton _ _, fun e he e' he' => ?_⟩
    obtain rfl := List.mem_singleton.mp he'
    exact hlast e he
  pending := fun req hreq => by
    have htimely := h.pending req hreq
    cases req with
    | delete cl' p => exact htimely
    -- a late request of another client stays timely
    | put cl' p body' mode =>
      intro old hallows
      obtain ⟨hstep', hle, hafter⟩ := htimely old hallows
      by_cases hp : p = path
      · -- the rank of the object is now too high for the request
        subst hp
        have hlt := lt_of_le_of_lt hle (hT _ _ _ hstep)
        rw [Bucket.change_objects, Function.update_self]
        refine ⟨hstep', hlt.le, fun heq => ?_⟩
        rw [← heq] at hlt
        exact (lt_irrefl _ hlt).elim
      · rw [Bucket.change_objects, Function.update_of_ne hp, Bucket.change_history]
        refine ⟨hstep', hle, fun heq e he hpath => ?_⟩
        rcases List.mem_append.mp he with he | he
        · exact hafter heq e he hpath
        · obtain rfl := List.mem_singleton.mp he
          exact absurd hpath.symm hp

theorem Request.Timely.of_eq {req : Request Client Body} (h : req.Timely stamp rank T b)
    (objects : b'.objects = b.objects) (history : b'.history = b.history) :
    req.Timely stamp rank T b' := by
  cases req with
  | delete cl' p => exact h
  | put cl' p body' mode =>
    unfold Timely at h ⊢
    rw [objects, history]
    exact h

/-- Some of the requests are not under way any more. -/
theorem Orderly.drop (h : Orderly stamp rank T start b) {inFlight : List (Request Client Body)}
    (hsub : inFlight ⊆ b.inFlight) : Orderly stamp rank T start { b with inFlight } where
  linked := h.linked
  ordered := h.ordered
  pending := fun req hreq => (h.pending req (hsub hreq)).of_eq rfl rfl

/-- What a client does in its turn. -/
theorem Orderly.turn (hT : ∀ cl old new, T cl old new → rank old < rank (some new))
    (h : Orderly stamp rank T start b) (hturn : Turn rank T cl path b b')
    (hlast : ∀ e ∈ b.history, e.path = path → stamp e.client ≤ stamp cl) :
    Orderly stamp rank T start b' := by
  cases hturn with
  | look objects inFlight history =>
    refine ⟨?_, ?_, fun req hreq => ?_⟩
    · rw [objects, history]
      exact h.linked
    · rw [history]
      exact h.ordered
    · exact (h.pending req (inFlight ▸ hreq)).of_eq objects history
  | change step => exact h.change hT step hlast
  | send step =>
    refine ⟨h.linked, h.ordered, fun req hreq => ?_⟩
    rcases List.mem_cons.mp hreq with rfl | hreq
    · intro old hallows
      exact ⟨(step old hallows).1, (step old hallows).2, fun _ => hlast⟩
    · exact (h.pending req hreq).of_eq rfl rfl

/-- The changes of a turn are the client's, of its object. -/
theorem Turn.history_of (h : Turn rank T cl path b b') {e : Event Client Body}
    (he : e ∈ b'.history) : e ∈ b.history ∨ e.client = cl ∧ e.path = path := by
  cases h with
  | look objects inFlight history => exact .inl (history ▸ he)
  | change step =>
    rcases List.mem_append.mp he with he | he
    · exact .inl he
    · obtain rfl := List.mem_singleton.mp he
      exact .inr ⟨rfl, rfl⟩
  | send step => exact .inl he

/-- So are its requests. -/
theorem Turn.inFlight_of (h : Turn rank T cl path b b') {req : Request Client Body}
    (hreq : req ∈ b'.inFlight) :
    req ∈ b.inFlight ∨ ∃ body mode, req = .put cl path body mode := by
  cases h with
  | look objects inFlight history => exact .inl (inFlight ▸ hreq)
  | change step => exact .inl hreq
  | send step =>
    rcases List.mem_cons.mp hreq with rfl | hreq
    · exact .inr ⟨_, _, rfl⟩
    · exact .inl hreq

/-- A request arrives, in whatever turn. -/
theorem Orderly.delivered (hT : ∀ cl old new, T cl old new → rank old < rank (some new))
    (h : Orderly stamp rank T start b) (hdelivered : b.Delivered b') :
    Orderly stamp rank T start b' := by
  cases hdelivered with
  | @put cl p body mode l₁ l₂ hreq hadm =>
    have htimely : (Request.put cl p body mode).Timely stamp rank T b :=
      h.pending _ (hreq ▸ List.mem_append_right _ List.mem_cons_self)
    -- its condition names the present content
    have hallows : mode.Allows (b.objects p) := by
      cases mode <;> exact hadm
    obtain ⟨hstep, -, hafter⟩ := htimely _ hallows
    have hrest : Orderly stamp rank T start { b with inFlight := l₁ ++ l₂ } := by
      apply h.drop
      rw [hreq]
      exact List.append_subset.mpr ⟨List.subset_append_left _ _,
        List.subset_append_of_subset_right _ (List.subset_cons_self _ _)⟩
    exact hrest.change hT hstep (hafter rfl)
  | @refused req l₁ l₂ hreq =>
    apply h.drop
    rw [hreq]
    exact List.append_subset.mpr ⟨List.subset_append_left _ _,
      List.subset_append_of_subset_right _ (List.subset_cons_self _ _)⟩
  | @delete cl p l₁ l₂ hreq =>
    have htimely : (Request.delete cl p).Timely stamp rank T b :=
      h.pending _ (hreq ▸ List.mem_append_right _ List.mem_cons_self)
    exact False.elim htimely

/-! ## Ranks -/

/-- The past is kept, and no object goes back in rank. -/
structure Bucket.Rises (rank : Option Body → L) (b b' : Bucket Client Body) : Prop where
  precedes : b.Precedes b'
  le : ∀ path, rank (b.objects path) ≤ rank (b'.objects path)

theorem Bucket.rises_of_eq (objects : b'.objects = b.objects) (history : b'.history = b.history) :
    b.Rises rank b' where
  precedes := ⟨[], (List.append_nil _).trans history.symm⟩
  le := fun path => (congrArg (fun o => rank (o path)) objects).ge

theorem Bucket.rises_change (hT : ∀ cl old new, T cl old new → rank old < rank (some new))
    (hstep : T cl (b.objects path) body) : b.Rises rank (b.change cl path (some body)) where
  precedes := List.prefix_append _ _
  le := fun p => by
    rw [Bucket.change_objects, Function.update_apply]
    split
    · rename_i hp
      rw [hp]
      exact (hT _ _ _ hstep).le
    · exact le_rfl

theorem Turn.rises (hT : ∀ cl old new, T cl old new → rank old < rank (some new))
    (h : Turn rank T cl path b b') : b.Rises rank b' := by
  cases h with
  | look objects inFlight history => exact Bucket.rises_of_eq objects history
  | change step => exact Bucket.rises_change hT step
  | send step => exact Bucket.rises_of_eq rfl rfl

theorem Orderly.rises (hT : ∀ cl old new, T cl old new → rank old < rank (some new))
    (h : Orderly stamp rank T start b) (hdelivered : b.Delivered b') : b.Rises rank b' := by
  cases hdelivered with
  | @put cl path body mode l₁ l₂ hreq hadm =>
    have htimely : (Request.put cl path body mode).Timely stamp rank T b :=
      h.pending _ (hreq ▸ List.mem_append_right _ List.mem_cons_self)
    have hallows : mode.Allows (b.objects path) := by
      cases mode <;> exact hadm
    have hchange : Bucket.Rises rank { b with inFlight := l₁ ++ l₂ } _ :=
      Bucket.rises_change hT (htimely _ hallows).1
    exact ⟨hchange.precedes, hchange.le⟩
  | refused hreq => exact Bucket.rises_of_eq rfl rfl
  | @delete cl path l₁ l₂ hreq =>
    have htimely : (Request.delete cl path).Timely stamp rank T b :=
      h.pending _ (hreq ▸ List.mem_append_right _ List.mem_cons_self)
    exact False.elim htimely

end Turns

/-! ## A client in its turn -/

/-- A bucket whose objects only rise in rank. -/
structure RisingBucket (Client : Type) {Body L : Type} (rank : Option Body → L) where
  bucket : Bucket Client Body

variable {rank : Option Body → L} {T : Client → Option Body → Body → Prop}

instance : Preorder (RisingBucket Client rank) where
  le w w' := w.bucket.Rises rank w'.bucket
  le_refl _ := ⟨List.prefix_rfl, fun _ => le_rfl⟩
  le_trans _ _ _ h h' := ⟨h.precedes.trans h'.precedes, fun path => (h.le path).trans (h'.le path)⟩

/-- A client in its turn. All that it relies on is that ranks rise. -/
def turnArena (hT : ∀ cl old new, T cl old new → rank old < rank (some new)) (f : Faults)
    (size : Body → Nat) (cl : Client) (path : String) :
    Arena (Cmd Body) Resp (Bucket Client Body) (RisingBucket Client rank) where
  view := RisingBucket.bucket
  exec := Bucket.Executes f size cl
  rely w w' := w ≤ w'
  guarantee w w' := Turn rank T cl path w.bucket w'.bucket
  rely_refl _ := le_rfl
  rely_trans h h' := le_trans h h'
  rely_le h := h
  guarantee_refl _ := .look rfl rfl rfl
  guarantee_le h := h.rises hT

section Requests

variable {hT : ∀ cl old new, T cl old new → rank old < rank (some new)} {f : Faults}
  {size : Body → Nat} {cl : Client} {path : String} {ε : Type}
  {F : ε → RisingBucket Client rank → Prop} {w : RisingBucket Client rank}

theorem turn_ofResult {α : Type} {r : Except ε α} {Q : α → RisingBucket Client rank → Prop}
    (hok : ∀ a, r = .ok a → Q a w) (herror : ∀ e, r = .error e → F e w) :
    (turnArena hT f size cl path).Ends (ofResult r) w Q F := by
  cases r with
  | ok a => exact hok a rfl
  | error e => exact herror e rfl

/-- A client reads. -/
theorem turn_get {p : String}
    {Q : Except StoreError (GetResult Body) → RisingBucket Client rank → Prop}
    (h : ∀ w', w ≤ w' → ∀ r, Got f size w'.bucket p r → Q r w') :
    (turnArena hT f size cl path).Ends (request (.get p)) w Q F := by
  apply Arena.ends_lift
  rintro w' hle r b ⟨hgot, rfl⟩
  exact ⟨w', .look rfl rfl rfl, rfl, h w' hle r hgot⟩

/-- A client writes over a content that is no later than the present one. -/
theorem turn_put {body : Body} {mode : PutMode Body}
    {Q : Except StoreError Body → RisingBucket Client rank → Prop}
    (hstep : ∀ old, mode.Allows old → T cl old body ∧ rank old ≤ rank (w.bucket.objects path))
    (h : ∀ w', w ≤ w' → ∀ r b, Put f cl w'.bucket path body mode r b → Q r ⟨b⟩) :
    (turnArena hT f size cl path).Ends (request (.put path body mode)) w Q F := by
  apply Arena.ends_lift
  intro w' hle r b hexec
  have hput : Put f cl w'.bucket path body mode r b := hexec
  -- whatever happens until the request, the written content is no earlier
  refine ⟨⟨b⟩, ?_, rfl, h w' hle r b hput⟩
  -- a write that arrives is a turn of the client
  have hwrite : w'.bucket.Admits path mode →
      Turn rank T cl path w'.bucket (w'.bucket.change cl path (some body)) := by
    intro hadm
    apply Turn.change
    have hallows : mode.Allows (w'.bucket.objects path) := by
      cases mode <;> exact hadm
    exact (hstep _ hallows).1
  -- it arrives, or the bucket stays, or it is on its way
  cases hput with
  | written hadm => exact hwrite hadm
  | refused he hadm => exact .look rfl rfl rfl
  | lost hf => exact .look rfl rfl rfl
  | unacknowledged hf hadm => exact hwrite hadm
  | delayed hf =>
    exact .send fun old hallows => ⟨(hstep old hallows).1, (hstep old hallows).2.trans (hle.le path)⟩
  | misreported hf he hadm => exact hwrite hadm
  | spurious hf he => exact .look rfl rfl rfl

end Requests

end Interaction

import Walstream.Log.Confirming
import Walstream.Log.IndexBuilders
import Walstream.Log.Inquiries
import Walstream.Log.ProducerScan

/-!
# The object budget of maintenance

A pass counts the objects of the partition before it plans, and traces the root it has published
once more before it collects. `Affordable` says what the first trace has found out: the pages of
the index, those of the producer directory and the segments are together at most `max_objects`.
The planned root is affordable again, and a trace of an affordable root does not run out.
-/

namespace Walstream.Log

open Interaction Tiling

/-- The error is not that of an exhausted budget. -/
def LogError.WithinBudget : LogError → Prop
  | .maintenanceBudget _ => False
  | _ => True

theorem LogError.withinBudget_mundane : Mundane LogError.WithinBudget :=
  ⟨fun _ => trivial, fun _ => trivial, trivial, fun _ => trivial⟩

/-- The request only looks at the store. -/
def Looks : Cmd Body → Prop
  | .get _ => True
  | .head _ => True
  | .list _ => True
  | _ => False

/-- The request neither replaces nor removes anything. -/
def Creates : Cmd Body → Prop
  | .put _ _ mode => mode = .create
  | .delete _ => False
  | _ => True

theorem creates_grants (log : PartitionLog) : log.Grants Creates where
  get := fun _ => trivial
  newV4 := trivial
  create := fun _ _ _ => rfl

/-- Whatever becomes of the request. -/
theorem Creates.extends {Client : Type} {f : Faults} {cl : Client} {size : Body → Nat}
    {c : Cmd Body} {b b' : Bucket Client Body} {answer : Resp c} (h : Creates c)
    (hexec : Bucket.Executes f size cl c b answer b') : Extends b.objects b'.objects := by
  cases c with
  | get path => exact hexec.2 ▸ Extends.refl _
  | head path => exact hexec.2 ▸ Extends.refl _
  | list directory => exact hexec.2 ▸ Extends.refl _
  | newV4 => exact hexec.2 ▸ Extends.refl _
  | delete path => exact h.elim
  | put path body mode =>
    obtain rfl : mode = .create := h
    cases hexec with
    | written hfree => exact extends_update hfree
    | unacknowledged _ hfree => exact extends_update hfree
    | misreported _ _ hfree => exact extends_update hfree
    | refused _ _ => exact Extends.refl _
    | lost _ => exact Extends.refl _
    | delayed _ => exact Extends.refl _
    | spurious _ _ => exact Extends.refl _

/-- The first content is in the second one, up to manifests that were put in its place. -/
def Grown (content content' : String → Option Body) : Prop :=
  ∀ path body, content path = some body →
    content' path = some body ∨ ∃ m, content' path = some (.manifest m)

/-- A manifest was put, or not. -/
theorem grown_put {Client : Type} {f : Faults} {cl : Client} {size : Body → Nat} {path : String}
    {m : LogManifest} {mode : PutMode Body} {b b' : Bucket Client Body}
    {answer : Resp (.put path (.manifest m) mode)}
    (h : Bucket.Executes f size cl (.put path (.manifest m) mode) b answer b') :
    Grown b.objects b'.objects := by
  have hsame : Grown b.objects b.objects := fun path body hbody => .inl hbody
  have hupdate : Grown b.objects (Function.update b.objects path (some (.manifest m))) := by
    intro path' body hbody
    by_cases hpath : path' = path
    · subst hpath
      exact .inr ⟨m, Function.update_self _ _ _⟩
    · exact .inl (by rwa [Function.update_of_ne hpath])
  cases h with
  | written _ => exact hupdate
  | unacknowledged _ _ => exact hupdate
  | misreported _ _ _ => exact hupdate
  | refused _ _ => exact hsame
  | lost _ => exact hsame
  | delayed _ => exact hsame
  | spurious _ _ => exact hsame

namespace PartitionLog

variable {self : PartitionLog} {content content' : String → Option Body}

/-! ## Pages that are read again -/

theorem collectBounded_eq_ok {size maximum : Nat} {body body' : Body}
    {g : BoundedReadError → LogError}
    (h : (self.crates.collectBounded ⟨size, body, .ok body⟩ maximum).mapError g = .ok body') :
    body' = body := by
  unfold Crates.collectBounded at h
  dsimp only at h
  split at h
  · cases h
  · exact (Except.ok.inj h).symm

/-- What a reference is answered with does not change: its object is still there, or is now a
manifest and answers nothing. -/
theorem evaluate_readDocument_unique {α : Type} {valid : Except LogError Unit} {path : String}
    {accept : GetResult Body → Except LogError α} {a a' : α} (hc : Grown content content')
    (hmanifest : ∀ size m a, accept ⟨size, .manifest m, .ok (.manifest m)⟩ ≠ .ok a)
    (h : self.evaluate content (readDocument valid path accept) = .ok a)
    (h' : self.evaluate content' (readDocument valid path accept) = .ok a') : a' = a := by
  obtain ⟨-, body, hbody, haccept⟩ := evaluate_readDocument.mp h
  obtain ⟨-, body', hbody', haccept'⟩ := evaluate_readDocument.mp h'
  rcases hc path body hbody with hsame | ⟨m, hm⟩
  · obtain rfl : body' = body := Option.some.inj (hbody'.symm.trans hsame)
    exact Except.ok.inj (haccept'.symm.trans haccept)
  · obtain rfl : body' = .manifest m := Option.some.inj (hbody'.symm.trans hm)
    exact absurd haccept' (hmanifest _ _ _)

theorem Answered.again {r : PageRef} {page page' : Page} (h : self.Answered content r page)
    (hc : Grown content content') (h' : self.Answered content' r page') : page' = page := by
  obtain ⟨_, hread⟩ := h
  obtain ⟨_, hread'⟩ := h'
  refine congrArg Subtype.val (evaluate_readDocument_unique hc (fun size m p hp => ?_) hread hread')
  simp only [acceptPage, bind_eq_ok] at hp
  obtain ⟨_, -, body, hbody, _, -, parsed, hparse, -⟩ := hp
  obtain rfl := collectBounded_eq_ok hbody
  cases hparse

variable {nextOffset : Int}

theorem ProducerAnswered.again {r : ProducerRef} {page page' : ProducerPage}
    (h : self.ProducerAnswered content nextOffset r page) (hc : Grown content content')
    (h' : self.ProducerAnswered content' nextOffset r page') : page' = page := by
  obtain ⟨_, hread⟩ := h
  obtain ⟨_, hread'⟩ := h'
  refine congrArg Subtype.val (evaluate_readDocument_unique hc (fun size m p hp => ?_) hread hread')
  simp only [acceptProducerPage, bind_eq_ok] at hp
  obtain ⟨_, -, body, hbody, _, -, parsed, hparse, -⟩ := hp
  obtain rfl := collectBounded_eq_ok hbody
  cases hparse

/-- Only the object that the reference names matters. -/
theorem ProducerAnswered.mono {r : ProducerRef} {page : ProducerPage}
    (h : self.ProducerAnswered content nextOffset r page) (hc : Extends content content') :
    self.ProducerAnswered content' nextOffset r page := by
  obtain ⟨hcheck, hread⟩ := h
  rw [readProducerPage_eq] at hread
  obtain ⟨hvalid, body, hbody, haccept⟩ := evaluate_readDocument.mp hread
  exact ⟨hcheck, evaluate_readDocument.mpr ⟨hvalid, body, hc _ _ hbody, haccept⟩⟩

/-- The pages that a trace of the directory visits, the last pending reference first, and how
many they are. -/
inductive Visits (page : ProducerRef → ProducerPage → Prop) : List ProducerRef → Nat → Prop where
  | nil : Visits page [] 0
  | leaf {r : ProducerRef} {pending : List ProducerRef} {states : List ProducerState} {n : Nat}
      (hpage : page r (.leaf states)) (h : Visits page pending n) :
      Visits page (r :: pending) (n + 1)
  | branch {r : ProducerRef} {children pending : List ProducerRef} {n : Nat}
      (hpage : page r (.branch children)) (h : Visits page (children.reverse ++ pending) n) :
      Visits page (r :: pending) (n + 1)

theorem Visits.imp {page page' : ProducerRef → ProducerPage → Prop} {pending : List ProducerRef}
    {n : Nat} (h : Visits page pending n) (himp : ∀ r p, page r p → page' r p) :
    Visits page' pending n := by
  induction h with
  | nil => exact .nil
  | leaf hpage _ ih => exact .leaf (himp _ _ hpage) ih
  | branch hpage _ ih => exact .branch (himp _ _ hpage) ih

/-! ## A trace that succeeds -/

section Alone

variable {Client : Type} {f : Faults} {cl : Client} {b : Bucket Client Body} {maximum : Nat}

/-- A producer page that was read is the answer to its reference. -/
theorem readProducerPage_leads (r : ProducerRef) :
    self.Leads f cl (self.readProducerPage r nextOffset) b
      (fun p b' => b' = b ∧ self.ProducerAnswered b.objects nextOffset r p.1) := by
  rw [readProducerPage_eq]
  refine (readDocument_leads fun size body e p hp => ?_).mono fun p b' hp => ⟨hp.1, p.2, hp.2⟩
  simp [acceptProducerPage, Crates.collectBounded, rejectIf, bind_eq_ok] at hp

/-- The trace has visited the pages of the tree, each of them within the budget. -/
theorem traceIndexLoop_leads (stack : List PageRef) (graph : LiveGraph) :
    self.Leads f cl (self.traceIndexLoop maximum stack graph) b (fun graph' b' => b' = b ∧
      ∃ os ss, Walk (self.Answered b.objects) stack os ss ∧
        graph'.segments = graph.segments ++ ss ∧
        graph'.objects.length = graph.objects.length + os.length ∧
        (graph.objects.length ≤ maximum → graph'.objects.length ≤ maximum)) := by
  -- on the weight of the stack; each page is entered before it is read
  induction hweight : stackWeight (stack.map (·.level)) using Nat.strong_induction_on
    generalizing stack graph with
  | _ weight ih =>
  subst hweight
  cases stack with
  | nil =>
    rw [traceIndexLoop]
    exact alone_pure ⟨rfl, [], [], .nil, by simp, rfl, id⟩
  | cons r stack =>
    rw [traceIndexLoop]
    refine leads_check_bind fun entered hentered => ?_
    -- there was room for the page
    obtain ⟨hroom, -, rfl⟩ := insert_eq_ok.mp hentered
    refine alone_bind (readPage_leads r) ?_
    -- a leaf adds its segments as well
    rintro ⟨segments | children, hpage⟩ _ ⟨rfl, hanswered⟩
    · dsimp only
      split
      · exact leads_throw
      refine (ih _ (stackWeight_lt_cons r.level _) stack _ rfl).mono ?_
      rintro graph' b' ⟨rfl, os, ss, hwalk, hsegments, hobjects, hwithin⟩
      refine ⟨rfl, _, _, .leaf hanswered hwalk, by rw [hsegments, List.append_assoc], ?_,
        fun _ => hwithin hroom⟩
      simp only [List.length_cons] at hobjects ⊢
      omega
    -- a branch is replaced by its children
    · have hlt := stackWeight_children (self.checkPage_levels hpage).1
        (self.checkPage_levels hpage).2
      refine (ih _ ?_ (children ++ stack) _ rfl).mono ?_
      · rw [List.map_append, stackWeight_append, List.map_cons, stackWeight_cons]
        omega
      rintro graph' b' ⟨rfl, os, ss, hwalk, hsegments, hobjects, hwithin⟩
      refine ⟨rfl, _, _, .branch hanswered hwalk, hsegments, ?_, fun _ => hwithin hroom⟩
      simp only [List.length_cons] at hobjects ⊢
      omega

theorem traceProducersLoop_leads (pending : List ProducerRef) (graph : LiveGraph) :
    self.Leads f cl (self.traceProducersLoop maximum nextOffset pending graph) b
      (fun graph' b' => b' = b ∧
        ∃ n, Visits (self.ProducerAnswered b.objects nextOffset) pending n ∧
          graph'.segments = graph.segments ∧
          graph'.objects.length = graph.objects.length + n ∧
          (graph.objects.length ≤ maximum → graph'.objects.length ≤ maximum)) := by
  -- on the weight of what is pending
  induction hweight : stackWeight (pending.map (·.level)) using Nat.strong_induction_on
    generalizing pending graph with
  | _ weight ih =>
  subst hweight
  cases pending with
  | nil =>
    rw [traceProducersLoop]
    exact alone_pure ⟨rfl, 0, .nil, rfl, rfl, id⟩
  | cons r pending =>
    rw [traceProducersLoop]
    refine leads_check_bind fun entered hentered => ?_
    obtain ⟨hroom, -, rfl⟩ := insert_eq_ok.mp hentered
    refine alone_bind (readProducerPage_leads r) ?_
    rintro ⟨states | children, hpage⟩ _ ⟨rfl, hanswered⟩
    -- a leaf has no pages below
    · refine (ih _ (stackWeight_lt_cons r.level _) pending _ rfl).mono ?_
      rintro graph' b' ⟨rfl, n, hvisits, hsegments, hobjects, hwithin⟩
      refine ⟨rfl, n + 1, .leaf hanswered hvisits, hsegments, ?_, fun _ => hwithin hroom⟩
      simp only [List.length_cons] at hobjects
      omega
    -- the children are visited in reverse order
    · have hlt := stackWeight_children (self.checkProducerPage_levels hpage).1
        (self.checkProducerPage_levels hpage).2
      refine (ih _ ?_ (children.reverse ++ pending) _ rfl).mono ?_
      · rw [List.map_append, stackWeight_append, List.map_cons, stackWeight_cons]
        omega
      rintro graph' b' ⟨rfl, n, hvisits, hsegments, hobjects, hwithin⟩
      refine ⟨rfl, n + 1, .branch hanswered hvisits, hsegments, ?_, fun _ => hwithin hroom⟩
      simp only [List.length_cons] at hobjects
      omega

theorem traceSegments_leads (segments : List Segment) (graph : LiveGraph) :
    self.Leads f cl (self.traceSegments maximum segments graph) b (fun graph' b' => b' = b ∧
      graph'.segments = graph.segments ∧
      (graph.objects.length ≤ maximum → graph.objects.length + segments.length ≤ maximum)) := by
  -- over the segments, each of which is an object of its own
  induction segments generalizing graph with
  | nil => exact alone_pure ⟨rfl, rfl, id⟩
  | cons s segments ih =>
    unfold traceSegments
    dsimp only
    split
    · exact leads_throw
    rename_i hroom
    split
    · exact leads_throw
    -- the size of the object is asked for
    refine alone_ask ?_
    rintro answer _ ⟨-, rfl⟩
    cases answer with
    | error e => exact leads_throw
    | ok size =>
      refine alone_bind (Q := fun a b' => a = size ∧ b' = _) (alone_pure ⟨rfl, rfl⟩) ?_
      rintro _ _ ⟨rfl, rfl⟩
      split
      · exact leads_throw
      refine (ih _).mono ?_
      rintro graph' b' ⟨rfl, hsegments, hwithin⟩
      refine ⟨rfl, hsegments, fun _ => ?_⟩
      simp only [List.length_cons] at hwithin ⊢
      omega

variable (self) in
theorem traceIndex_leads (root : Root) :
    self.Leads f cl (self.traceIndex root ⟨[], []⟩ maximum) b (fun graph b' => b' = b ∧
      ∃ os ss, Walk (self.Answered b.objects) root.tree.toList os ss ∧
        graph.segments = ss ++ root.tail ∧ graph.objects.length = os.length ∧
        graph.objects.length ≤ maximum) := by
  unfold traceIndex
  refine alone_bind (traceIndexLoop_leads _ _) ?_
  rintro graph _ ⟨rfl, os, ss, hwalk, hsegments, hobjects, hwithin⟩
  split
  · exact leads_throw
  · refine alone_pure ⟨rfl, os, ss, hwalk, ?_, ?_, hwithin (Nat.zero_le _)⟩
    · rw [hsegments, List.nil_append]
    · rw [hobjects, List.length_nil, Nat.zero_add]

variable (self) in
/-- The root holds these segments; its pages, the pages of its directory and the segments are no
more than the budget. -/
def Affordable (content : String → Option Body) (maximum : Nat) (root : Root)
    (segments : List Segment) : Prop :=
  ∃ os ss n, Walk (self.Answered content) root.tree.toList os ss ∧
    Visits (self.ProducerAnswered content root.nextOffset) root.producers.toList n ∧
    segments = ss ++ root.tail ∧ os.length + n + segments.length ≤ maximum

/-- **A trace that succeeds has found the root affordable.** -/
theorem traceManifest_leads (root : Root) :
    self.Leads f cl (self.traceManifest (.indexed root) maximum) b (fun graph b' => b' = b ∧
      self.Affordable b.objects maximum root graph.segments) := by
  unfold traceManifest
  refine alone_bind (self.traceIndex_leads root) ?_
  rintro graph _ ⟨rfl, os, ss, hwalk, hsegments, hobjects, hwithin⟩
  refine alone_bind (traceProducersLoop_leads root.producers.toList graph) ?_
  rintro graph' _ ⟨rfl, n, hvisits, hsegments', hobjects', hwithin'⟩
  refine (traceSegments_leads _ graph').mono ?_
  rintro graph'' b' ⟨rfl, hsegments'', hall⟩
  rw [hsegments''] at *
  rw [hsegments'] at *
  refine ⟨rfl, os, ss, n, hwalk, hvisits, hsegments, ?_⟩
  have := hall (hwithin' hwithin)
  omega

/-! ## A trace that is affordable -/

/-- Reading does not exhaust a budget. -/
theorem Leads.obeys {α : Type} {x : Engine α} {Q : α → Bucket Client Body → Prop}
    {φ : Cmd Body → Prop} {P : LogError → Prop} (h : self.Leads f cl x b Q) (hx : Obeys φ P x) :
    self.AloneOn f cl x b Q fun e _ => P e := by
  intro cs r b' hrun
  exact ⟨(h cs r b' hrun).1, (hx.runs hrun).2⟩

/-- Whatever reading answers in a store that has grown, it is the page that was there before. -/
theorem readPage_again {r : PageRef} {page : Page} (h : self.Answered content r page)
    (hc : Grown content b.objects) : self.AloneOn f cl (self.readPage r) b
      (fun p b' => b' = b ∧ p.1 = page) fun e _ => e.WithinBudget :=
  ((readPage_leads r).mono fun _ _ hp => ⟨hp.1, h.again hc hp.2⟩).obeys
    (self.readPage_obeys (φ := fun _ => True) LogError.withinBudget_mundane (fun _ => trivial) r)

theorem readProducerPage_again {r : ProducerRef} {page : ProducerPage}
    (h : self.ProducerAnswered content nextOffset r page) (hc : Grown content b.objects) :
    self.AloneOn f cl (self.readProducerPage r nextOffset) b (fun p b' => b' = b ∧ p.1 = page)
      fun e _ => e.WithinBudget :=
  ((readProducerPage_leads r).mono fun _ _ hp => ⟨hp.1, h.again hc hp.2⟩).obeys
    (self.readProducerPage_obeys (φ := fun _ => True) LogError.withinBudget_mundane
      (fun _ => trivial) r nextOffset)

/-- Entering one more object: there is room for it, but it may be there already. -/
theorem insert_within {α : Type} {graph : LiveGraph} {object : String} {g : LiveGraph → Engine α}
    {Q : α → Bucket Client Body → Prop} (hroom : graph.objects.length < maximum)
    (h : self.AloneOn f cl (g { graph with objects := object :: graph.objects }) b Q
      fun e _ => e.WithinBudget) :
    self.AloneOn f cl (do g (← Engine.check (graph.insert object maximum))) b Q
      fun e _ => e.WithinBudget := by
  by_cases hmem : object ∈ graph.objects
  · have hinsert : graph.insert object maximum =
        .error (invalid "duplicate object in live graph") := by
      simp [LiveGraph.insert, rejectIf, not_le.mpr hroom, hmem]
      rfl
    rw [hinsert]
    exact alone_throw trivial
  · exact alone_check_bind_ok (insert_eq_ok.mpr ⟨hroom, hmem, rfl⟩) h

/-- The loop stays within a budget that the pages of the stack do not exceed. -/
theorem traceIndexLoop_within {stack : List PageRef} {os : List String} {ss : List Segment}
    {graph : LiveGraph} (hwalk : Walk (self.Answered content) stack os ss)
    (hc : Grown content b.objects) (hobjects : graph.objects.length + os.length ≤ maximum)
    (hsegments : graph.segments.length + ss.length ≤ maximum) :
    self.AloneOn f cl (self.traceIndexLoop maximum stack graph) b (fun graph' b' => b' = b ∧
      graph'.objects.length = graph.objects.length + os.length ∧
      graph'.segments.length = graph.segments.length + ss.length)
      fun e _ => e.WithinBudget := by
  -- over the walk of the first trace, whose pages are still there
  induction hwalk generalizing graph with
  | nil =>
    rw [traceIndexLoop]
    exact alone_pure ⟨rfl, rfl, rfl⟩
  | @leaf r stack segments rest objects hpage hwalk ih =>
    simp only [List.length_cons, List.length_append] at hobjects hsegments
    rw [traceIndexLoop]
    -- there is room for the page
    apply insert_within (by omega)
    refine alone_bind (readPage_again hpage hc) ?_
    rintro ⟨_, hcheck⟩ _ ⟨rfl, rfl⟩
    dsimp only
    rw [if_neg (by omega)]
    refine (ih ?_ ?_).mono ?_ fun _ _ h => h
    · simp only [List.length_cons]
      omega
    · simp only [List.length_append]
      omega
    rintro graph' b' ⟨rfl, hcount, hsum⟩
    simp only [List.length_cons, List.length_append] at hcount hsum ⊢
    exact ⟨trivial, by omega, by omega⟩
  -- a branch adds itself only
  | @branch r children stack segments objects hpage hwalk ih =>
    simp only [List.length_cons] at hobjects
    rw [traceIndexLoop]
    apply insert_within (by omega)
    refine alone_bind (readPage_again hpage hc) ?_
    rintro ⟨_, hcheck⟩ _ ⟨rfl, rfl⟩
    refine (ih ?_ ?_).mono ?_ fun _ _ h => h
    · simp only [List.length_cons]
      omega
    · exact hsegments
    rintro graph' b' ⟨rfl, hcount, hsum⟩
    simp only [List.length_cons] at hcount ⊢
    exact ⟨trivial, by omega, hsum⟩

theorem traceProducersLoop_within {pending : List ProducerRef} {n : Nat} {graph : LiveGraph}
    (hvisits : Visits (self.ProducerAnswered content nextOffset) pending n)
    (hc : Grown content b.objects) (hobjects : graph.objects.length + n ≤ maximum) :
    self.AloneOn f cl (self.traceProducersLoop maximum nextOffset pending graph) b
      (fun graph' b' => b' = b ∧ graph'.objects.length = graph.objects.length + n ∧
        graph'.segments = graph.segments)
      fun e _ => e.WithinBudget := by
  -- over the pages that the first trace has visited
  induction hvisits generalizing graph with
  | nil =>
    rw [traceProducersLoop]
    exact alone_pure ⟨rfl, rfl, rfl⟩
  | @leaf r pending states n hpage _ ih =>
    rw [traceProducersLoop]
    apply insert_within (by omega)
    refine alone_bind (readProducerPage_again hpage hc) ?_
    rintro ⟨_, hcheck⟩ _ ⟨rfl, rfl⟩
    refine (ih ?_).mono ?_ fun _ _ h => h
    · simp only [List.length_cons]
      omega
    rintro graph' b' ⟨rfl, hcount, hsegments⟩
    simp only [List.length_cons] at hcount
    exact ⟨rfl, by omega, hsegments⟩
  | @branch r children pending n hpage _ ih =>
    rw [traceProducersLoop]
    apply insert_within (by omega)
    refine alone_bind (readProducerPage_again hpage hc) ?_
    rintro ⟨_, hcheck⟩ _ ⟨rfl, rfl⟩
    refine (ih ?_).mono ?_ fun _ _ h => h
    · simp only [List.length_cons]
      omega
    rintro graph' b' ⟨rfl, hcount, hsegments⟩
    simp only [List.length_cons] at hcount
    exact ⟨rfl, by omega, hsegments⟩

theorem traceSegments_within {segments : List Segment} {graph : LiveGraph}
    (hobjects : graph.objects.length + segments.length ≤ maximum) :
    self.AloneOn f cl (self.traceSegments maximum segments graph) b (fun _ _ => True)
      fun e _ => e.WithinBudget := by
  induction segments generalizing graph b with
  | nil => exact alone_pure trivial
  | cons s segments ih =>
    simp only [List.length_cons] at hobjects
    unfold traceSegments
    rw [if_neg (by omega)]
    dsimp only
    split
    · exact alone_throw trivial
    refine alone_ask fun answer b' _ => ?_
    cases answer with
    | error e => exact alone_throw trivial
    | ok size =>
      refine alone_bind (Q := fun a _ => a = size) (alone_pure rfl) ?_
      rintro _ b' rfl
      split
      · exact alone_throw trivial
      · exact ih (by simp only [List.length_cons]; omega)

/-- **An affordable root can be traced again.** -/
theorem traceManifest_within {root : Root} {segments : List Segment}
    (h : self.Affordable content maximum root segments) (hc : Grown content b.objects) :
    self.AloneOn f cl (self.traceManifest (.indexed root) maximum) b (fun _ _ => True)
      fun e _ => e.WithinBudget := by
  obtain ⟨os, ss, n, hwalk, hvisits, rfl, htotal⟩ := h
  rw [List.length_append] at htotal
  unfold traceManifest
  dsimp only
  -- the tree and the tail, then the directory, and then the objects of the segments
  have hindex : self.AloneOn f cl (self.traceIndex root ⟨[], []⟩ maximum) b (fun graph b' =>
      b' = b ∧ graph.objects.length = os.length ∧
        graph.segments.length = ss.length + root.tail.length) fun e _ => e.WithinBudget := by
    unfold traceIndex
    refine alone_bind (traceIndexLoop_within hwalk hc ?_ ?_) ?_
    · simp only [List.length_nil]
      omega
    · simp only [List.length_nil]
      omega
    rintro graph _ ⟨rfl, hobjects, hsegments⟩
    rw [List.length_nil, Nat.zero_add] at hobjects hsegments
    rw [if_neg (by omega)]
    exact alone_pure ⟨rfl, hobjects, by rw [List.length_append, hsegments]⟩
  -- nothing is left out of the budget that was planned
  refine alone_bind hindex ?_
  rintro graph _ ⟨rfl, hobjects, hsegments⟩
  refine alone_bind (traceProducersLoop_within hvisits hc (by omega)) ?_
  rintro graph' _ ⟨rfl, hobjects', hsegments'⟩
  apply traceSegments_within
  rw [hsegments', hobjects']
  omega

/-! ## The planned root -/

/-- A rebuilt index over no more segments has no more pages than a valid one, canonical or not,
whose tail fits one leaf. -/
theorem Canonical.pages_le {root root' : Root} {segments segments' ss ss' : List Segment}
    {os os' : List String} (h' : self.Canonical content' root' segments')
    (hwalk' : Walk (self.Answered content') root'.tree.toList os' ss')
    (heq' : segments' = ss' ++ root'.tail)
    (hwalk : Walk (self.Answered content) root.tree.toList os ss) (heq : segments = ss ++ root.tail)
    (htail : root.tail.length ≤ pageEntries) (hle : segments'.length ≤ segments.length) :
    os'.length ≤ os.length := by
  have hsealed := h'.treeCount hwalk' heq'
  obtain ⟨k, hk⟩ := hwalk.dvd_length (Answered.checked content)
  have hcount := hwalk.count (Answered.checked content)
  have hcount' := hwalk'.count (Answered.checked content')
  -- no more segments are sealed than before
  have hless : ss'.length ≤ ss.length := by
    rw [heq, List.length_append] at hle
    simp only [pageEntries] at *
    omega
  rcases htree' : root'.tree with _ | r'
  · rw [htree'] at hwalk'
    cases hwalk'
    exact Nat.zero_le _
  have hsnug := h'.snug r' htree'
  rw [htree'] at hwalk' hcount'
  -- the new tree has a segment
  have hpos' := (validatePageRef_eq_ok.mp (Walk.root_valid hwalk')).2.2.2.2.1
  simp only [Option.toList_some, countBelow_cons, countBelow_nil] at hcount'
  rcases htree : root.tree with _ | r
  · -- then there is nothing in the new tree, either
    rw [htree] at hcount
    simp only [Option.toList_none, countBelow_nil] at hcount
    omega
  rw [htree] at hwalk hcount
  have hvalid := Walk.root_valid hwalk
  have hpos := (validatePageRef_eq_ok.mp hvalid).2.2.2.2.1
  simp only [Option.toList_some, countBelow_cons, countBelow_nil] at hcount
  -- the number of pages is determined by the number of segments, and grows with it
  rw [hwalk'.objects_length (Answered.checked content') (by simpa using hpos'),
    hwalk.objects_length (Answered.checked content) (by simpa using hpos)]
  simpa using pagesBelow_snug_le hsnug hvalid (by omega)

/-- What requests that only create leave in the store. -/
theorem extends_of_creates {α : Type} {x : Engine α} {P : LogError → Prop}
    (h : Obeys Creates P x) : self.AloneOn f cl x b (fun _ b' => Extends b.objects b'.objects)
      fun e b' => P e ∧ Extends b.objects b'.objects :=
  h.alone (I := fun b' : Bucket Client Body => Extends b.objects b'.objects)
    (fun _ _ _ _ hc hexec hkept => hkept.trans (hc.extends hexec)) (Extends.refl _)

section Planned

variable {options : MaintenanceOptions} {nowMs : Nat} {inventory : Inventory} {m : LogManifest}
  {graph : LiveGraph} {plan : RetentionPlan} {k : Nat}

/-- The index of the planned root: rebuilt, or that of the loaded root. -/
theorem retainedIndex_leads (htopic : validateTopic self.topic = .ok ())
    (hvalid : self.ValidManifest m)
    (hplanned : Planned options nowMs inventory m graph plan k)
    (hgraph : ∀ root, m = .indexed root →
      self.Affordable b.objects maximum root graph.segments) :
    self.Leads f cl (self.retainedIndex m plan maximum) b (fun index b' =>
      ∃ segments, self.Affordable b'.objects maximum { index with producers := m.producers }
        segments) := by
  unfold retainedIndex
  split
  · -- the pages of the directory are still there
    have hobeys : Obeys Creates (fun _ => True)
        (self.rebuildIndex plan.retained plan.startOffset m.nextOffset maximum) :=
      self.rebuildIndex_obeys ⟨fun _ => trivial, fun _ => trivial, trivial, fun _ => trivial⟩
        trivial (creates_grants self) _ _ _
    -- the rebuilt index is canonical, and the old objects are still there
    refine (((rebuildIndex_leads htopic _ _ _ _).yields).and (extends_of_creates hobeys)).mono ?_
      fun _ _ _ => trivial
    rintro index b' ⟨⟨hyields, hcanonical, os, ss, hwalk, heq, hbudget⟩, hkept⟩
    obtain ⟨-, hnext⟩ := rebuildIndex_yields hyields
    -- a legacy manifest has no directory
    cases m with
    | legacy legacy => exact ⟨_, os, ss, 0, hwalk, .nil, heq, by omega⟩
    | indexed root =>
      obtain ⟨os₀, ss₀, n, hwalk₀, hvisits, heq₀, htotal⟩ := hgraph root rfl
      -- what is retained are the last segments
      have hretained : plan.retained.length ≤ graph.segments.length := by
        rw [hplanned.retained, List.length_drop]
        exact Nat.sub_le _ _
      have hpages := hcanonical.pages_le hwalk heq hwalk₀ heq₀ hvalid.tail_le hretained
      refine ⟨_, os, ss, n, hwalk, ?_, heq, by omega⟩
      rw [hnext]
      exact hvisits.imp fun r p hpage => hpage.mono hkept
  -- the index is that of the loaded root
  · rename_i hrebuild
    obtain ⟨-, root, rfl⟩ := hplanned.rebuild (by simpa using hrebuild)
    exact alone_pure ⟨_, hgraph root rfl⟩

/-- **A planned root is affordable**, whether or not it was rebuilt. -/
theorem maintenanceRoot_leads (htopic : validateTopic self.topic = .ok ())
    (hvalid : self.ValidManifest m)
    (hplanned : Planned options nowMs inventory m graph plan k)
    (hgraph : ∀ root, m = .indexed root →
      self.Affordable b.objects maximum root graph.segments) :
    self.Leads f cl (self.maintenanceRoot m plan maximum) b (fun root b' =>
      ∃ segments, self.Affordable b'.objects maximum root segments) := by
  unfold maintenanceRoot
  refine alone_bind (retainedIndex_leads htopic hvalid hplanned hgraph) fun index b' hindex => ?_
  refine leads_check_bind fun revision _ => leads_check_bind fun _ _ => ?_
  dsimp only
  split
  · exact leads_throw
  · exact alone_pure hindex

end Planned

/-! ## Errors of a whole pass -/

theorem alone_of_looks {α : Type} {x : Engine α} {P : LogError → Prop} (h : Obeys Looks P x) :
    self.AloneOn f cl x b (fun _ b' => b' = b) fun e b' => P e ∧ b' = b := by
  refine h.alone (I := fun b' : Bucket Client Body => b' = b) (fun c s r s' hc hexec hs => ?_) rfl
  cases c with
  | get path => exact hexec.2.trans hs
  | head path => exact hexec.2.trans hs
  | list directory => exact hexec.2.trans hs
  | put path body mode => exact hc.elim
  | delete path => exact hc.elim
  | newV4 => exact hc.elim

/-- Where a rebuild runs out of budget, it has not begun to write. -/
theorem rebuildIndex_refuses (segments : List Segment) (startOffset nextOffset : Int) :
    self.AloneOn f cl (self.rebuildIndex segments startOffset nextOffset maximum) b
      (fun _ _ => True) fun e b' => e.WithinBudget ∨ b' = b := by
  have hwithin : ∀ {α : Type} {x : Engine α} {b₁ : Bucket Client Body},
      Obeys (fun _ => True) LogError.WithinBudget x → self.AloneOn f cl x b₁ (fun _ _ => True)
        fun e b' => e.WithinBudget ∨ b' = b :=
    fun h cs r b' hrun => ⟨fun _ _ => trivial, fun e he => .inl ((h.runs hrun).2 e he)⟩
  have hgrants : self.Grants fun _ => True := ⟨fun _ => trivial, trivial, fun _ _ _ => trivial⟩
  unfold rebuildIndex
  refine alone_bind (Q := fun _ b' => b' = b)
    (alone_check (fun _ _ => rfl) fun _ _ => .inr rfl) ?_
  rintro count _ rfl
  dsimp only
  split
  · exact alone_throw (.inr rfl)
  · apply hwithin
    refine obeys_bind (self.writePages_obeys LogError.withinBudget_mundane hgrants _) fun _ => ?_
    exact obeys_bind (self.writeBranches_obeys LogError.withinBudget_mundane hgrants _)
      fun _ => obeys_pure

theorem maintenanceRoot_refuses (manifest : LogManifest) (plan : RetentionPlan) :
    self.AloneOn f cl (self.maintenanceRoot manifest plan maximum) b (fun _ _ => True)
      fun e b' => e.WithinBudget ∨ b' = b := by
  unfold maintenanceRoot
  refine alone_bind (Q := fun _ _ => True) ?_ fun index b' _ => ?_
  · unfold retainedIndex
    split
    · exact rebuildIndex_refuses _ _ _
    · cases manifest <;> exact alone_pure trivial
  refine alone_bind (Q := fun _ _ => True) (alone_check (fun _ _ => trivial) fun e he => ?_)
    fun revision b' _ => ?_
  · exact .inl ((by simp [LogError.WithinBudget] :
      FailsWith LogError.WithinBudget (okOr _ LogError.revisionOverflow)) e he)
  refine alone_bind (Q := fun _ _ => True) (alone_check (fun _ _ => trivial) fun e he => ?_)
    fun _ b' _ => ?_
  · exact .inl (self.validateRoot_failsWith LogError.withinBudget_mundane _ e he)
  dsimp only
  split
  · exact alone_throw (.inl trivial)
  · exact alone_pure trivial

theorem collect_errors (live : LiveGraph) (removable : Inventory) (report : MaintenanceReport) :
    self.AloneOn f cl (self.collect live removable report) b (fun _ _ => True)
      fun e _ => ∃ report source, e = incomplete report source ∧ source.WithinBudget := by
  induction removable generalizing report b with
  | nil => exact alone_pure trivial
  | cons entry removable ih =>
    obtain ⟨object, size⟩ := entry
    unfold collect
    split
    · exact ih _
    refine alone_ask fun answer b' _ => ?_
    split
    · exact ih _
    · exact ih _
    · exact alone_throw ⟨_, _, rfl, trivial⟩

/-- After the publication no budget is exhausted. -/
theorem collectPublished_errors {root : Root} {version : UpdateVersion} {plan : RetentionPlan}
    {segments : List Segment} (h : self.Affordable content maximum root segments)
    (hc : Grown content b.objects) :
    self.AloneOn f cl (self.collectPublished root version plan maximum) b (fun _ _ => True)
      fun e _ => ∃ report source, e = incomplete report source ∧ source.WithinBudget := by
  have hstale : ∀ error {b' : Bucket Client Body},
      self.AloneOn f cl (self.staleMissing (some version) error) b' (fun _ _ => True)
        fun e _ => e.WithinBudget := fun error b' cs r _ hrun =>
    ⟨fun _ _ => trivial, ((self.staleMissing_obeys (φ := fun _ => True)
      LogError.withinBudget_mundane (fun _ => trivial) _ error).runs hrun).2⟩
  unfold collectPublished
  refine alone_attempt_bind (traceManifest_within h hc) (fun live b' _ => ?_) fun error b' he => ?_
  · exact alone_bind (collect_errors _ _ _) fun _ _ _ => alone_pure trivial
  · refine alone_attempt_bind (hstale error) (fun stale b' _ => ?_) fun error' b' he' => ?_
    · cases stale with
      | true => exact alone_pure trivial
      | false => exact alone_throw ⟨_, error, rfl, he⟩
    · exact alone_throw ⟨_, error', rfl, he'⟩

/-- An exhausted budget is reported before anything is written, and never as an incomplete
maintenance. -/
structure Spares (b : Bucket Client Body) (e : LogError) (b' : Bucket Client Body) : Prop where
  published : ∀ report maximum, e ≠ incomplete report (.maintenanceBudget maximum)
  untouched : ∀ maximum, e = .maintenanceBudget maximum → b' = b

theorem spares_of_plain {b' : Bucket Client Body} {e : LogError} (hplain : e.Plain)
    (h : e.WithinBudget ∨ b' = b) : Spares b e b' where
  published := by
    rintro report maximum rfl
    exact hplain
  untouched := by
    rintro maximum rfl
    exact h.elim False.elim id

theorem spares_of_incomplete {b' : Bucket Client Body} {e : LogError}
    (h : ∃ report source, e = incomplete report source ∧ source.WithinBudget) : Spares b e b' where
  published := by
    rintro report maximum rfl
    obtain ⟨_, _, heq, hwithin⟩ := h
    cases heq
    exact hwithin
  untouched := by
    rintro maximum rfl
    obtain ⟨_, _, heq, -⟩ := h
    cases heq

/-- Before the first write, an error leaves the store as it is. -/
theorem spares_of_looks {α : Type} {x : Engine α} (h : Obeys Looks LogError.Plain x) :
    self.AloneOn f cl x b (fun _ b' => b' = b) (Spares b) :=
  (alone_of_looks h).mono (fun _ _ h => h) fun _ _ he => spares_of_plain he.1 (.inr he.2)

/-- The trace that a pass plans with. -/
theorem planningTrace_leads (manifest : LogManifest) :
    self.AloneOn f cl (self.traceManifest manifest maximum) b
      (fun graph b' => (∀ root, manifest = .indexed root →
        self.Affordable b.objects maximum root graph.segments) ∧ b' = b)
      fun e b' => e.Plain ∧ b' = b := by
  have hlooks : self.AloneOn f cl (self.traceManifest manifest maximum) b (fun _ b' => b' = b)
      fun e b' => e.Plain ∧ b' = b :=
    alone_of_looks (self.traceManifest_obeys LogError.plain_mundane trivial (fun _ => trivial)
      (fun _ => trivial) manifest)
  cases manifest with
  | legacy legacy =>
    refine hlooks.mono (fun graph b' h => ⟨fun root hroot => ?_, h⟩) fun _ _ h => h
    cases hroot
  | indexed root =>
    refine ((traceManifest_leads root).and hlooks).mono (fun graph b' h => ⟨fun root' hroot => ?_, h.2⟩)
      fun _ _ h => h.2
    cases hroot
    exact h.1.2

/-- The planned root, and what a failure of the last step before its publication leaves. -/
theorem plannedRoot_leads (htopic : validateTopic self.topic = .ok ())
    {options : MaintenanceOptions} {nowMs : Nat} {inventory : Inventory} {m : LogManifest}
    {graph : LiveGraph} {plan : RetentionPlan} {k : Nat} (hvalid : self.ValidManifest m)
    (hplanned : Planned options nowMs inventory m graph plan k)
    (hgraph : ∀ root, m = .indexed root →
      self.Affordable b.objects maximum root graph.segments) :
    self.AloneOn f cl (self.maintenanceRoot m plan maximum) b
      (fun root b' => ∃ segments, self.Affordable b'.objects maximum root segments) (Spares b) := by
  have hplain : self.AloneOn f cl (self.maintenanceRoot m plan maximum) b
      (fun _ b' => Extends b.objects b'.objects)
      fun e b' => e.Plain ∧ Extends b.objects b'.objects :=
    extends_of_creates (self.maintenanceRoot_obeys LogError.plain_mundane trivial
      (creates_grants self) trivial m plan)
  refine ((maintenanceRoot_leads htopic hvalid hplanned hgraph).and
    (hplain.and (maintenanceRoot_refuses m plan))).mono (fun root b' h => h.1) fun e b' h => ?_
  exact spares_of_plain h.2.1.1 h.2.2

/-- **One pass**, whatever it finds: a budget is exhausted only before anything is written. -/
theorem maintainPass_spares (htopic : validateTopic self.topic = .ok ())
    (options : MaintenanceOptions) (nowMs : Nat) :
    self.AloneOn f cl (self.maintainPass options nowMs) b (fun _ _ => True) (Spares b) := by
  -- loading reads only
  have hload : ∀ {b : Bucket Client Body}, self.AloneOn f cl self.loadManifest b
      (fun loaded b' => Yields self.loadManifest loaded ∧ b' = b) (Spares b) :=
    (spares_of_looks (self.loadManifestOf_obeys LogError.plain_mundane (fun _ => trivial) _)).yields
  unfold maintainPass
  refine alone_bind (spares_of_looks (self.inventory_obeys LogError.plain_mundane trivial
    fun _ => trivial)) ?_
  rintro inventory _ rfl
  refine alone_bind hload ?_
  rintro loaded _ ⟨hyields, rfl⟩
  have hvalid := loaded_valid hyields
  generalize loaded.getD LoadedManifest.empty = loaded at *
  -- the first trace decides whether anything is planned
  refine alone_attempt_bind (planningTrace_leads loaded.manifest) ?_ ?_
  · rintro graph _ ⟨hgraph, rfl⟩
    refine alone_bind (Q := fun plan b' =>
      self.planRetention options nowMs inventory loaded.manifest graph = .ok plan ∧ b' = _)
      (alone_check (fun plan hplan => ⟨hplan, rfl⟩) fun e he => ?_) ?_
    · exact spares_of_plain (planRetention_eq_error he ▸ trivial) (.inr rfl)
    rintro plan _ ⟨hplan, rfl⟩
    obtain ⟨k, hplanned⟩ := planRetention_eq_ok hplan
    dsimp only
    split
    · exact alone_pure trivial
    refine alone_bind (plannedRoot_leads htopic hvalid hplanned hgraph) ?_
    rintro root b₁ ⟨segments, hroot⟩
    -- everything was afforded, whatever the store answers
    refine alone_ask fun answer b₂ hput => ?_
    have hgrown := grown_put hput
    split
    · exact (collectPublished_errors hroot hgrown).mono (fun _ _ h => h)
        fun _ _ he => spares_of_incomplete he
    · exact alone_pure trivial
    · exact alone_pure trivial
    · exact alone_throw (spares_of_incomplete ⟨_, _, rfl, trivial⟩)
  -- the first trace has failed, and nothing is written
  · rintro error _ ⟨hplain, rfl⟩
    refine alone_bind (spares_of_looks (self.staleMissing_obeys LogError.plain_mundane
      (fun _ => trivial) _ _)) ?_
    rintro stale _ rfl
    split
    · exact alone_pure trivial
    · exact alone_throw (spares_of_plain hplain (.inr rfl))

/-- **An accepted plan never runs out of budget after publication.** A pass runs alone, from any
state of the partition and with any limits; only the store may fail. If it can load and trace what
is there, and write the root that it has planned, then the trace of this root does not run out of
the same budget, whatever became of its publication. In a whole pass an exhausted budget is an
error that leaves the store as it was, and never one of an incomplete maintenance. -/
theorem accepted_plan_within_budget (log : PartitionLog)
    (htopic : validateTopic log.topic = .ok ()) (f : Faults) (cl : Client)
    (options : MaintenanceOptions) (nowMs : Nat) (b : Bucket Client Body) :
    (∀ (b₁ b₂ b₃ b₄ b₅ : Bucket Client Body) (cs₁ cs₂ cs₃ cs₄ : List (Cmd Body))
      (inventory : Inventory) (loaded : Option LoadedManifest) (graph : LiveGraph)
      (plan : RetentionPlan) (root : Root) (mode : PutMode Body)
      (answer : Resp (.put log.manifestPath (.manifest (.indexed root)) mode))
      (outcome : Except LogError LiveGraph),
      Runs (Bucket.Executes f log.crates.size cl) b log.loadManifest.run cs₁ (.ok loaded) b₁ →
      Runs (Bucket.Executes f log.crates.size cl) b₁
        (log.traceManifest (loaded.getD .empty).manifest options.maxObjects).run cs₂
        (.ok graph) b₂ →
      log.planRetention options nowMs inventory (loaded.getD .empty).manifest graph = .ok plan →
      Runs (Bucket.Executes f log.crates.size cl) b₂
        (log.maintenanceRoot (loaded.getD .empty).manifest plan options.maxObjects).run cs₃
        (.ok root) b₃ →
      Bucket.Executes f log.crates.size cl
        (.put log.manifestPath (.manifest (.indexed root)) mode) b₃ answer b₄ →
      Runs (Bucket.Executes f log.crates.size cl) b₄
        (log.traceManifest (.indexed root) options.maxObjects).run cs₄ outcome b₅ →
      ∀ maximum, outcome ≠ .error (.maintenanceBudget maximum)) ∧
    ∀ (b' : Bucket Client Body) (cs : List (Cmd Body)) (outcome : Except LogError Pass),
      Runs (Bucket.Executes f log.crates.size cl) b (log.maintainPass options nowMs).run cs
        outcome b' →
      (∀ report maximum,
        outcome ≠ .error (.maintenanceIncomplete report (.maintenanceBudget maximum))) ∧
      ∀ maximum, outcome = .error (.maintenanceBudget maximum) → b' = b := by
  constructor
  -- the phases of the pass in turn
  · intro b₁ b₂ b₃ b₄ b₅ cs₁ cs₂ cs₃ cs₄ inventory loaded graph plan root mode answer outcome hload
      htrace hplan hroot hput hagain
    rintro maximum rfl
    obtain ⟨_, htalks, -⟩ := hload.talks
    obtain ⟨hgraph, rfl⟩ := (planningTrace_leads _ _ _ _ htrace).1 _ rfl
    obtain ⟨k, hplanned⟩ := planRetention_eq_ok hplan
    obtain ⟨segments, haffordable⟩ := (plannedRoot_leads htopic (loaded_valid htalks.returns)
      hplanned hgraph _ _ _ hroot).1 _ rfl
    exact (traceManifest_within haffordable (grown_put hput) _ _ _ hagain).2 _ rfl
  -- the budget of a whole pass
  · intro b' cs outcome hrun
    refine ⟨?_, ?_⟩
    · rintro report maximum rfl
      exact ((maintainPass_spares htopic options nowMs _ _ _ hrun).2 _ rfl).published _ _ rfl
    · rintro maximum rfl
      exact ((maintainPass_spares htopic options nowMs _ _ _ hrun).2 _ rfl).untouched _ rfl

end Alone

end PartitionLog

namespace Reference

open PartitionLog

variable {f : Faults}

/-- The store of an index with a tree; the UUIDs in its names were handed out. -/
def treeBucket : Bucket Unit Body := .initial treeObjects {id | id.toNat < 130}

theorem treeBucket_free : log.FreeNames treeBucket := fun _ hid =>
  treeObjects_free (Nat.le_of_not_lt hid)

theorem treeRoot_fits {root : Root} (hvalid : log.validateRoot root = .ok ())
    (hnamed : ∀ s ∈ root.tail, ∃ id, s.object = log.segmentPath id) :
    ¬ log.crates.size (.manifest (.indexed root)) > maxManifestBytes :=
  Nat.not_lt.mpr (fits.root root (validateRoot_eq_ok.mp hvalid) hnamed)

theorem treeObjects_inOrder : log.InOrder treeObjects := by
  intro body hbody
  obtain rfl := Option.some.inj (treeObjects_manifest.symm.trans hbody)
  refine ⟨_, rfl, ?_⟩
  have hsize := treeRoot_fits treeRoot_valid fun s hs => by
    obtain ⟨_, hbytes⟩ := treeSegments_stored s (treeSegments_eq ▸ List.mem_append_right _ hs)
    exact hbytes.named
  have hparse : log.parseManifest (.manifest (.indexed treeRoot)) = .ok (.indexed treeRoot) := by
    simp only [parseManifest, treeRoot_valid]
    rfl
  unfold Accepted acceptManifest
  refine bind_eq_ok.mpr ⟨(), by rw [rejectIf, if_neg hsize], ?_⟩
  refine bind_eq_ok.mpr ⟨.manifest (.indexed treeRoot), ?_, ?_⟩
  · rw [Crates.collectBounded]
    simp [hsize]
  · exact bind_eq_ok.mpr ⟨_, hparse, rfl⟩

/-- Only the newest 120 records may stay. -/
def newest : MaintenanceOptions := ⟨none, some 8280, true, 1000⟩

/-- The plan where some segments expire and no other objects are known. -/
private theorem plan_expired (log : PartitionLog) {options : MaintenanceOptions} {nowMs : Nat}
    {m : LogManifest} (graph : LiveGraph) {k bytes : Nat}
    (hexpire : expire options (adoptionTime m nowMs) nowMs graph.segments
      (graph.segments.map (·.byteLength)).sum = (k, bytes)) (hk : k ≠ 0) : ∃ plan,
    log.planRetention options nowMs [] m graph = .ok plan ∧
      plan.retained = graph.segments.drop k ∧
      plan.startOffset = (graph.segments[k]?.map (·.baseOffset)).getD m.nextOffset ∧
      plan.rebuild = true := by
  unfold planRetention
  simp only [hexpire]
  refine ⟨_, rfl, rfl, rfl, ?_⟩
  simp [hk]

/-- The plan to drop the first ten segments. -/
theorem newest_plan (found : List String) : ∃ plan,
    log.planRetention newest 0 [] (.indexed treeRoot) ⟨treeSegments, found⟩ = .ok plan ∧
      plan.retained = treeSegments.drop 10 ∧ plan.startOffset = 10 ∧ plan.rebuild = true := by
  have hexpire : expire newest (adoptionTime (.indexed treeRoot) 0) 0 treeSegments
      (treeSegments.map (·.byteLength)).sum = (10, 8280) := by decide +kernel
  have hstart : (treeSegments[10]?.map (·.baseOffset)).getD (LogManifest.indexed treeRoot).nextOffset =
      10 := by decide +kernel
  obtain ⟨plan, hplan, hretained, hoffset, hrebuild⟩ := plan_expired log
    (m := .indexed treeRoot) ⟨treeSegments, found⟩ hexpire (by decide)
  exact ⟨plan, hplan, hretained, hoffset.trans hstart, hrebuild⟩

/-- A trace of segments within the budget finds them. -/
private theorem traceSegments_evaluate {log : PartitionLog} {content : String → Option Body}
    {maximum : Nat} {segments : List Segment} (graph : LiveGraph)
    (htopic : validateTopic log.topic = .ok ()) (hstored : log.Stored content segments)
    (hnodup : (segments.map (·.object) ++ graph.objects).Nodup)
    (hroom : segments.length + graph.objects.length ≤ maximum) :
    ∃ found, log.evaluate content (log.traceSegments maximum segments graph) =
      .ok ⟨graph.segments, found⟩ := by
  have hdrafts : log.Drafts (log.traceSegments maximum segments graph) ⟨content, ∅⟩
      (fun out _ => out.segments = graph.segments) fun _ => False :=
    traceSegments_drafts htopic hstored hnodup (fun hmany => by omega) fun _ _ => rfl
  have hreads : Issues Cmd.Reads (log.traceSegments maximum segments graph) :=
    Obeys.issues Cmd.answerable
      (log.traceSegments_obeys (P := fun _ => True) ⟨by simp, by simp, by simp, by simp⟩ trivial
        (fun _ => trivial) _ _)
  rcases Drafts.eval hdrafts hreads fun _ _ h => h with ⟨⟨ss, found⟩, heval, hsame⟩ | ⟨_, -, hfalse⟩
  · obtain rfl : ss = graph.segments := hsame
    exact ⟨found, heval⟩
  · exact hfalse.elim

theorem traceManifest_reads (log : PartitionLog) (manifest : LogManifest) (maximum : Nat) :
    Issues Cmd.Reads (log.traceManifest manifest maximum) :=
  Obeys.issues Cmd.answerable
    (log.traceManifest_obeys (P := fun _ => True) ⟨by simp, by simp, by simp, by simp⟩ trivial
      (fun _ => trivial) (fun _ => trivial) manifest)

/-- A trace within the budget finds the segments of an index without producers. -/
private theorem traceManifest_evaluate {log : PartitionLog} {content : String → Option Body}
    {maximum : Nat} {root : Root} {os : List String} {segments : List Segment} {next : Int}
    (htopic : validateTopic log.topic = .ok ()) (h : log.Indexed content root os segments next)
    (hproducers : root.producers = none) (hroom : segments.length + os.length ≤ maximum) :
    ∃ found, log.evaluate content (log.traceManifest (.indexed root) maximum) =
      .ok ⟨segments, found⟩ := by
  obtain ⟨ss, hforest, heq⟩ := h.forest
  have hnodup := h.nodup
  have hwalk := hforest.imp fun _ _ _ hpage => hpage.answered
  have hpages : os.length ≤ maximum := by omega
  have hcount : ss.length + root.tail.length ≤ maximum := by
    rw [← List.length_append, ← heq]
    omega
  have hobjects : segments.length + os.reverse.length ≤ maximum := by rwa [List.length_reverse]
  -- the tree and the tail hold the segments of the index
  obtain ⟨_, hindex, rfl⟩ := (evaluate_reader log content).traceIndex hwalk
    (List.nodup_append.mp hnodup).1 hpages hcount
  rw [← heq] at hindex
  have hapart : (segments.map (·.object) ++ os.reverse).Nodup :=
    (List.perm_append_comm.trans ((List.reverse_perm os).append_right _)).nodup_iff.mpr hnodup
  -- their objects are there and differ from the pages
  obtain ⟨found, hsegments⟩ := traceSegments_evaluate ⟨segments, os.reverse⟩ htopic h.stored hapart
    hobjects
  -- there is no directory
  have hdirectory : log.evaluate content (log.traceProducers root ⟨segments, os.reverse⟩ maximum) =
      .ok ⟨segments, os.reverse⟩ := by
    rw [traceProducers, hproducers, Option.toList_none, traceProducersLoop]
    rfl
  refine ⟨found, ?_⟩
  unfold traceManifest
  dsimp only
  rw [evaluate_bind, hindex]
  change log.evaluate content (log.traceProducers root ⟨segments, os.reverse⟩ maximum >>= _) = _
  rw [evaluate_bind, hdirectory]
  change log.evaluate content (log.traceSegments maximum segments ⟨segments, os.reverse⟩) = _
  exact hsegments

theorem tree_traced : ∃ found, Inquires Faults.none log.crates.size () treeBucket
    (log.traceManifest (.indexed treeRoot) 1000).run (.ok ⟨treeSegments, found⟩) := by
  obtain ⟨found, hfound⟩ := traceManifest_evaluate topic_valid tree_indexed rfl
    (show _ ≤ 1000 by simp [treeSegments])
  exact ⟨found, inquires_evaluate id (traceManifest_reads ..) hfound⟩

/-- The segments that are retained. -/
theorem newest_contiguous : log.Contiguous treeObjects (treeSegments.drop 10) 10 130 where
  tiles := by
    rw [treeSegments, ← List.map_drop, List.drop_range']
    exact segmentAt_tiles 10 120
  valid := fun s hs => treeSegments_valid s (List.mem_of_mem_drop hs)
  stored := fun s hs => treeSegments_stored s (List.mem_of_mem_drop hs)
  nodup := by
    rw [treeSegments, ← List.map_drop, List.drop_range']
    exact segmentAt_nodup (by decide)
  start_nonneg := by decide
  next_le := by decide

/-- A root that is planned from this index is published if it is valid and not too large. -/
private theorem maintenanceRoot_runs (log : PartitionLog) {manifest : LogManifest}
    {plan : RetentionPlan} {maximum r : Nat} {index planned : Root}
    {b b' : Bucket Unit Body} {cs : List (Cmd Body)}
    (hindex : Runs (Bucket.Executes Faults.none log.crates.size ()) b
      (log.retainedIndex manifest plan maximum).run cs (.ok index) b')
    (hrevision : checkedAddU64 manifest.revision 1 = some r)
    (hplanned : planned = { index with
      producers := manifest.producers
      schema := indexSchema
      adoptedAtMs := some plan.adoption
      revision := r })
    (hvalid : log.validateRoot planned = .ok ())
    (hsize : ¬ log.crates.size (.manifest (.indexed planned)) > maxManifestBytes) :
    ∃ cs', Runs (Bucket.Executes Faults.none log.crates.size ()) b
      (log.maintenanceRoot manifest plan maximum).run cs' (.ok planned) b' := by
  -- what remains does not ask the store for anything
  have hrest : Inquires Faults.none log.crates.size () b' (do
      let revision ← Engine.check (okOr (checkedAddU64 manifest.revision 1) .revisionOverflow)
      let root := { index with
        producers := manifest.producers
        schema := indexSchema
        adoptedAtMs := some plan.adoption
        revision := revision }
      Engine.check (log.validateRoot root)
      if log.crates.size (.manifest (.indexed root)) > maxManifestBytes then
        throw (invalid "maintenance root exceeds byte limit")
      return root : Engine Root).run (.ok planned) := by
    refine inquires_check_bind (a := r) (by rw [hrevision, okOr]) ?_
    dsimp only
    rw [← hplanned]
    refine inquires_check_bind hvalid ?_
    rw [if_neg hsize]
    exact inquires_pure planned
  obtain ⟨cs', hrest⟩ := hrest.runs
  exact ⟨cs ++ cs', Runs.bind (k := ExceptT.bindCont _) hindex hrest⟩

/-- The index is written anew, and the planned root is valid. -/
theorem newest_root {plan : RetentionPlan} (hretained : plan.retained = treeSegments.drop 10)
    (hstart : plan.startOffset = 10) (hrebuild : plan.rebuild = true) : ∃ cs root b',
    Runs (Bucket.Executes Faults.none log.crates.size ()) treeBucket
      (log.maintenanceRoot (.indexed treeRoot) plan 1000).run cs (.ok root) b' ∧
      b'.objects log.manifestPath = some (.manifest (.indexed treeRoot)) := by
  -- 120 segments remain, one leaf and a tail of 56
  have hlength : (treeSegments.drop 10).length = 120 := by simp [treeSegments]
  have htotal : countPages (((treeSegments.drop 10).length - 1) / pageEntries * pageEntries /
      pageEntries) (treeSegments.drop 10).length 1000 = .ok 121 := by
    rw [hlength, countPages]
    rfl
  have hcompletes : log.Completes () treeBucket
      (log.rebuildIndex (treeSegments.drop 10) 10 130 1000) _ _ :=
    rebuildIndex_completes topic_valid fits.toIndexPagesFit treeBucket_free newest_contiguous htotal
      (by decide)
  -- the ids from 1000 on were not issued yet
  have hleft : ∀ id ∈ uuidsFrom 1000, id ∉ treeBucket.issued := by
    rintro id hid hlt
    obtain ⟨i, hi, rfl⟩ := List.mem_map.mp hid
    rw [List.mem_range'_1] at hi
    have hsmall : (BitVec.ofNat 128 i).toNat < 130 := hlt
    simp only [BitVec.toNat_ofNat] at hsmall
    omega
  obtain ⟨cs, result, b', hrun, -⟩ := hcompletes.terminates (uuidsFrom 1000)
    (uuidsFrom_nodup (by decide)) (by simp [hlength]) hleft
  obtain ⟨root, rfl, -, hkept, ⟨hcompact, hfields⟩, os, hindexed⟩ := hcompletes.succeeds _ _ _ hrun
  obtain ⟨planned, hplanned⟩ : ∃ planned, planned = { root with
      producers := treeRoot.producers
      schema := indexSchema
      adoptedAtMs := some plan.adoption
      revision := 131 } := ⟨_, rfl⟩
  have hcongr : log.Indexed b'.objects planned os (treeSegments.drop 10) 130 :=
    hindexed.congr (by rw [hplanned]) (by rw [hplanned]) (by rw [hplanned])
  -- the planned root is a valid one
  have hvalid : log.validateRoot planned = .ok () := by
    refine validateRoot_eq_ok.mpr (hcongr.validRoot (by rw [hplanned]) (by simp [hplanned]) ?_
      (by decide) ?_ ?_ ?_)
    · rw [hplanned]
      exact congrArg Root.nextOffset hfields
    · simp [hplanned, treeRoot, Root.empty]
    · rw [hlength, hplanned]
      exact show 120 ≤ 131 by decide
    · rw [hplanned]
      exact hcompact
  have hnamed : ∀ s ∈ planned.tail, ∃ id, s.object = log.segmentPath id := by
    intro s hs
    obtain ⟨ss, -, heq⟩ := hcongr.forest
    obtain ⟨_, hbytes⟩ := hcongr.stored s (heq ▸ List.mem_append_right _ hs)
    exact hbytes.named
  -- and small enough
  have hsize := treeRoot_fits hvalid hnamed
  have hindex : log.retainedIndex (.indexed treeRoot) plan 1000 =
      log.rebuildIndex (treeSegments.drop 10) 10 130 1000 := by
    rw [retainedIndex, if_pos hrebuild, hretained, hstart]
    rfl
  rw [← hindex] at hrun
  obtain ⟨cs', hruns⟩ := maintenanceRoot_runs log hrun (r := 131) rfl hplanned hvalid hsize
  exact ⟨cs', planned, b', hruns, hkept _ _ treeObjects_manifest⟩

/-- A pass over an index with a tree, from the load to the second trace: the oldest segments
expire, and the index of the others is written anew. -/
theorem accepted_plan_within_budget_expiring : ∃ (b₁ b₂ b₃ b₄ b₅ : Bucket Unit Body)
    (cs₁ cs₂ cs₃ cs₄ : List (Cmd Body)) (loaded : Option LoadedManifest) (graph : LiveGraph)
    (plan : RetentionPlan) (root : Root) (mode : PutMode Body)
    (answer : Resp (.put log.manifestPath (.manifest (.indexed root)) mode))
    (outcome : Except LogError LiveGraph),
    Runs (Bucket.Executes Faults.none log.crates.size ()) treeBucket log.loadManifest.run cs₁
      (.ok loaded) b₁ ∧
    Runs (Bucket.Executes Faults.none log.crates.size ()) b₁
      (log.traceManifest (loaded.getD .empty).manifest 1000).run cs₂ (.ok graph) b₂ ∧
    log.planRetention newest 0 [] (loaded.getD .empty).manifest graph = .ok plan ∧
    (plan.rebuild = true ∧ graph.segments.length = 130 ∧ plan.retained.length = 120) ∧
    Runs (Bucket.Executes Faults.none log.crates.size ()) b₂
      (log.maintenanceRoot (loaded.getD .empty).manifest plan 1000).run cs₃ (.ok root) b₃ ∧
    Bucket.Executes Faults.none log.crates.size ()
      (.put log.manifestPath (.manifest (.indexed root)) mode) b₃ answer b₄ ∧
    Runs (Bucket.Executes Faults.none log.crates.size ()) b₄
      (log.traceManifest (.indexed root) 1000).run cs₄ outcome b₅ ∧
    ∀ maximum, outcome ≠ .error (.maintenanceBudget maximum) := by
  -- the run is put together from its phases
  obtain ⟨loaded, hinquires, hmanifest⟩ := loadManifest_inquires () (b := treeBucket)
    (f := Faults.none) id treeObjects_inOrder
  obtain ⟨cs₁, hload⟩ := hinquires.runs
  have hmanifest : (loaded.getD .empty).manifest = .indexed treeRoot := by
    rw [hmanifest, manifestIn]
    exact congrArg _ treeObjects_manifest
  obtain ⟨found, hinquires⟩ := tree_traced
  obtain ⟨cs₂, htrace⟩ := hinquires.runs
  obtain ⟨plan, hplan, hretained, hstart, hrebuild⟩ := newest_plan found
  obtain ⟨cs₃, root, b₃, hroot, hobject⟩ := newest_root hretained hstart hrebuild
  rw [← hmanifest] at htrace hplan hroot
  have hput : Bucket.Executes Faults.none log.crates.size () (.put log.manifestPath
      (.manifest (.indexed root)) (.update (.manifest (.indexed treeRoot)))) b₃ _ _ :=
    .written hobject
  obtain ⟨cs₄, hagain⟩ := (inquires_evaluate id (traceManifest_reads log (.indexed root) 1000)
    rfl : Inquires Faults.none log.crates.size () _ _ _).runs
  refine ⟨_, _, b₃, _, _, cs₁, cs₂, cs₃, cs₄, loaded, _, plan, root, _, _, _, hload, htrace, hplan,
    ⟨hrebuild, by simp [treeSegments], by rw [hretained]; simp [treeSegments]⟩, hroot, hput, hagain, ?_⟩
  exact (accepted_plan_within_budget log topic_valid Faults.none () newest 0 treeBucket).1
    _ _ _ _ _ _ _ _ _ _ _ _ _ _ _ _ _ hload htrace hplan hroot hput hagain

end Reference

end Walstream.Log

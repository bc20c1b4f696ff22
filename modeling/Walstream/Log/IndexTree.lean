import Walstream.Log.Drafting

/-!
# The segments of an index tree

`Walk page pages objects segments`: the index pages below `pages` are the objects `objects`
and hold the segments `segments`, in order. The constructors follow the stack of
`trace_index`: the first page is replaced by its children. `Forest content` is the walk in a
store with this content.

The traversals are verified once for every way to run programs in which a reference is
answered with its page (`Reader`).
-/

namespace Walstream.Log

open Interaction Tiling

namespace PartitionLog

/-- The page that a reference promises is there. -/
structure StoredPage (log : PartitionLog) (content : String → Option Body) (r : PageRef)
    (page : Page) : Prop where
  body : content r.object = some (.page page)
  length : log.crates.size (.page page) = r.byteLength
  sha : log.crates.sha256Hex (.page page) = r.sha256
  reference : log.validatePageRef r = .ok ()
  check : log.checkPage r page = .ok ()
  path : log.crates.pathFrom r.object = r.object

/-- The pages below a stack of references, and the segments in them: `page r p` says which
page a reference stands for. -/
inductive Walk (page : PageRef → Page → Prop) :
    List PageRef → List String → List Segment → Prop where
  | nil : Walk page [] [] []
  | leaf {r : PageRef} {pages : List PageRef} {segments rest : List Segment}
      {objects : List String} (hpage : page r (.leaf segments))
      (h : Walk page pages objects rest) :
      Walk page (r :: pages) (r.object :: objects) (segments ++ rest)
  | branch {r : PageRef} {children pages : List PageRef} {segments : List Segment}
      {objects : List String} (hpage : page r (.branch children))
      (h : Walk page (children ++ pages) objects segments) :
      Walk page (r :: pages) (r.object :: objects) segments

/-- The walk over pages that are there. -/
abbrev Forest (log : PartitionLog) (content : String → Option Body) :
    List PageRef → List String → List Segment → Prop := Walk (log.StoredPage content)

variable {self : PartitionLog} {content content' : String → Option Body}

/-! ## Reading one page -/

theorem parsePage_of_checkPage {r : PageRef} {page : Page} (h : self.checkPage r page = .ok ()) :
    self.parsePage (.page page) = .ok page := by
  cases page with
  | leaf segments =>
    have := (checkPage_leaf.mp h).1
    simp [parsePage, this]
  | branch children =>
    have := (checkPage_branch_eq_ok.mp h).2.1
    simp [parsePage, this]

namespace StoredPage

variable {r : PageRef} {page page' : Page} (h : self.StoredPage content r page)

include h

theorem mono (hc : content' r.object = content r.object) : self.StoredPage content' r page where
  body := hc.trans h.body
  length := h.length
  sha := h.sha
  reference := h.reference
  check := h.check
  path := h.path

theorem unique (h' : self.StoredPage content r page') : page = page' := by
  have := h.body.symm.trans h'.body
  simpa using this

theorem accept : self.acceptPage r ⟨self.crates.size (.page page), .page page, .ok (.page page)⟩ =
    .ok ⟨page, h.check⟩ := by
  have hcheck := h.check
  simp only [acceptPage, h.length, h.sha, Crates.collectBounded, mapError_ok, ne_eq, not_true_eq_false,
    rejectIf, if_false, gt_iff_lt, lt_irrefl, or_self, parsePage_of_checkPage hcheck, bind,
    Except.bind]
  split
  · rfl
  · rename_i e he
    simp [hcheck] at he

theorem accept_broken (e : StoreError) : ∃ x,
    self.acceptPage r ⟨self.crates.size (.page page), .page page, .error e⟩ = .error x ∧
      x.Reports e := by
  refine ⟨.objectStore e, ?_, .inl rfl⟩
  simp [acceptPage, h.length, Crates.collectBounded, rejectIf, bind, Except.bind]

end StoredPage

variable {n : Notes Body} {F : LogError → Prop}

theorem readPage_drafts {r : PageRef} {page : Page} {Q : self.CheckedPage r → Notes Body → Prop}
    (h : self.StoredPage n.content r page) (hQ : Q ⟨page, h.check⟩ n) :
    self.Drafts (self.readPage r) n Q F := by
  have hbody : n.content (self.crates.pathFrom r.object) = some (.page page) := by
    rw [h.path, h.body]
  exact drafts_check_bind_ok h.reference (drafts_get hbody h.accept h.accept_broken hQ)

theorem readPage_bind_drafts {α : Type} {r : PageRef} {page : Page}
    {f : self.CheckedPage r → Engine α} {Q : α → Notes Body → Prop}
    (h : self.StoredPage n.content r page) (hf : self.Drafts (f ⟨page, h.check⟩) n Q F) :
    self.Drafts (do f (← self.readPage r)) n Q F := by
  refine drafting_bind (readPage_drafts h (Q := fun p n' => p = ⟨page, h.check⟩ ∧ n' = n)
    ⟨rfl, rfl⟩) ?_
  rintro p n' - ⟨rfl, hn⟩
  rwa [hn]

/-! ## Walks and forests -/

namespace Walk

variable {page : PageRef → Page → Prop} {pages qs : List PageRef} {os ps : List String}
  {ss ts : List Segment}

theorem append (h : Walk page pages os ss) (h' : Walk page qs ps ts) :
    Walk page (pages ++ qs) (os ++ ps) (ss ++ ts) := by
  induction h with
  | nil => exact h'
  | leaf hpage _ ih =>
    rw [List.append_assoc]
    exact .leaf hpage ih
  | branch hpage _ ih =>
    rw [List.append_assoc] at ih
    exact .branch hpage ih

theorem split (h : Walk page (pages ++ qs) os ss) :
    ∃ os₁ os₂ ss₁ ss₂, os = os₁ ++ os₂ ∧ ss = ss₁ ++ ss₂ ∧
      Walk page pages os₁ ss₁ ∧ Walk page qs os₂ ss₂ := by
  generalize hall : pages ++ qs = all at h
  induction h generalizing pages with
  | nil =>
    obtain ⟨rfl, rfl⟩ := List.append_eq_nil_iff.mp hall
    exact ⟨[], [], [], [], rfl, rfl, .nil, .nil⟩
  -- the first list is over, or begins with this page
  | @leaf r rs segments rest objects hpage h ih =>
    cases pages with
    | nil =>
      subst hall
      exact ⟨[], _, [], _, rfl, rfl, .nil, .leaf hpage h⟩
    | cons p pages =>
      obtain ⟨rfl, rfl⟩ := List.cons_eq_cons.mp hall
      obtain ⟨os₁, os₂, ss₁, ss₂, rfl, rfl, h₁, h₂⟩ := ih rfl
      exact ⟨p.object :: os₁, os₂, segments ++ ss₁, ss₂, rfl, by simp, .leaf hpage h₁, h₂⟩
  | @branch r children rs segments objects hpage h ih =>
    cases pages with
    | nil =>
      subst hall
      exact ⟨[], _, [], _, rfl, rfl, .nil, .branch hpage h⟩
    | cons p pages =>
      obtain ⟨rfl, rfl⟩ := List.cons_eq_cons.mp hall
      obtain ⟨os₁, os₂, ss₁, ss₂, rfl, rfl, h₁, h₂⟩ := ih (List.append_assoc _ _ _)
      exact ⟨p.object :: os₁, os₂, ss₁, ss₂, rfl, rfl, .branch hpage h₁, h₂⟩

theorem split_head {r : PageRef} (h : Walk page (r :: pages) os ss) :
    ∃ os₁ os₂ ss₁ ss₂, os = os₁ ++ os₂ ∧ ss = ss₁ ++ ss₂ ∧
      Walk page [r] os₁ ss₁ ∧ Walk page pages os₂ ss₂ :=
  split (show Walk page ([r] ++ pages) os ss from h)

theorem roots_mem (h : Walk page pages os ss) {r : PageRef} (hr : r ∈ pages) :
    r.object ∈ os := by
  induction h with
  | nil => simp at hr
  | leaf _ _ ih =>
    rcases List.mem_cons.mp hr with rfl | hr
    · simp
    · exact List.mem_cons_of_mem _ (ih hr)
  | branch _ _ ih =>
    rcases List.mem_cons.mp hr with rfl | hr
    · simp
    · exact List.mem_cons_of_mem _ (ih (List.mem_append_right _ hr))

/-- What a stack stands for is determined by its pages. -/
theorem unique (hpage : ∀ r p q, page r p → page r q → p = q) {ps : List String}
    {ts : List Segment} (h : Walk page pages os ss) (h' : Walk page pages ps ts) :
    os = ps ∧ ss = ts := by
  induction h generalizing ps ts with
  | nil => cases h'; exact ⟨rfl, rfl⟩
  | leaf hleaf _ ih =>
    cases h' with
    | leaf hleaf' h' =>
      cases hpage _ _ _ hleaf hleaf'
      obtain ⟨rfl, rfl⟩ := ih h'
      exact ⟨rfl, rfl⟩
    | branch hbranch' h' => cases hpage _ _ _ hleaf hbranch'
  | branch hbranch _ ih =>
    cases h' with
    | leaf hleaf' h' => cases hpage _ _ _ hbranch hleaf'
    | branch hbranch' h' =>
      cases hpage _ _ _ hbranch hbranch'
      obtain ⟨rfl, rfl⟩ := ih h'
      exact ⟨rfl, rfl⟩

section Checked

variable (hcheck : ∀ r p, page r p → self.checkPage r p = .ok ())

include hcheck

/-- References that tile a range hold segments that tile it. -/
theorem tiles {a b : Int} (h : Walk page pages os ss) (ht : RefTiles pages a b) :
    SegmentTiles ss a b := by
  induction h generalizing a with
  | nil => exact ht
  | leaf hpage _ ih =>
    obtain ⟨hfirst, -, hrest⟩ := ht
    have hleaf := (checkPage_leaf.mp (hcheck _ _ hpage)).2.2.2.1
    rw [hfirst] at hleaf
    exact hleaf.append (ih hrest)
  | branch hpage _ ih =>
    obtain ⟨hfirst, -, hrest⟩ := ht
    have hrow := (checkPage_branch_eq_ok.mp (hcheck _ _ hpage)).2.2.2.2.2.2
    have htiles := hrow.tiles
    rw [hfirst] at htiles
    exact ih (htiles.append hrest)

theorem count (h : Walk page pages os ss) : ss.length = countBelow pages := by
  induction h with
  | nil => rfl
  | leaf hpage _ ih =>
    obtain ⟨hlen, hcount, -⟩ := checkPage_leaf.mp (hcheck _ _ hpage)
    simp only [List.length_append, countBelow_cons, ih]
    omega
  | branch hpage _ ih =>
    have hcount := (checkPage_branch_eq_ok.mp (hcheck _ _ hpage)).2.2.1
    rw [ih, countBelow_append, countBelow_cons, hcount]

/-- Every segment below an index page passed the reader's checks. -/
theorem valid (h : Walk page pages os ss) : ∀ s ∈ ss, self.ValidSegment s := by
  induction h with
  | nil => simp
  | leaf hpage _ ih =>
    intro s hs
    rcases List.mem_append.mp hs with hs | hs
    · exact (checkPage_leaf.mp (hcheck _ _ hpage)).2.2.2.2.1 s hs
    · exact ih s hs
  | branch _ _ ih => exact ih

end Checked

end Walk

namespace Forest

variable {pages qs : List PageRef} {os ps : List String} {ss ts : List Segment}

/-- A forest only depends on its own objects. -/
theorem mono (h : self.Forest content pages os ss) (hc : ∀ o ∈ os, content' o = content o) :
    self.Forest content' pages os ss := by
  induction h with
  | nil => exact .nil
  | leaf page _ ih =>
    exact .leaf (page.mono (hc _ (by simp))) (ih fun o ho => hc o (by simp [ho]))
  | branch page _ ih =>
    exact .branch (page.mono (hc _ (by simp))) (ih fun o ho => hc o (by simp [ho]))

theorem unique (h : self.Forest content pages os ss) (h' : self.Forest content pages ps ts) :
    os = ps ∧ ss = ts := Walk.unique (fun _ _ _ hp hq => hp.unique hq) h h'

/-- Every object of a forest is a page that is there. -/
theorem mem_objects (h : self.Forest content pages os ss) {o : String} (ho : o ∈ os) :
    ∃ r page, o = r.object ∧ self.StoredPage content r page := by
  induction h with
  | nil => simp at ho
  | leaf page _ ih =>
    rcases List.mem_cons.mp ho with rfl | ho
    · exact ⟨_, _, rfl, page⟩
    · exact ih ho
  | branch page _ ih =>
    rcases List.mem_cons.mp ho with rfl | ho
    · exact ⟨_, _, rfl, page⟩
    · exact ih ho

theorem tiles {a b : Int} (h : self.Forest content pages os ss) (ht : RefTiles pages a b) :
    SegmentTiles ss a b := Walk.tiles (fun _ _ page => page.check) h ht

theorem count (h : self.Forest content pages os ss) : ss.length = countBelow pages :=
  Walk.count (fun _ _ page => page.check) h

theorem single_tiles {r : PageRef} (h : self.Forest content [r] os ss) :
    SegmentTiles ss r.firstOffset r.nextOffset := by
  refine h.tiles ⟨rfl, ?_, rfl⟩
  have hpage : ∃ page, self.StoredPage content r page := by
    cases h with
    | leaf page _ => exact ⟨_, page⟩
    | branch page _ => exact ⟨_, page⟩
  obtain ⟨page, hpage⟩ := hpage
  exact (validatePageRef_eq_ok.mp hpage.reference).2.2.2.1

end Forest

/-! ## Traversals -/

section Traversals

variable {pages : List PageRef} {os : List String} {ss : List Segment}

theorem insert_eq_ok {graph graph' : LiveGraph} {object : String} {maximum : Nat} :
    graph.insert object maximum = .ok graph' ↔ graph.objects.length < maximum ∧
      object ∉ graph.objects ∧ graph' = { graph with objects := object :: graph.objects } := by
  simp only [LiveGraph.insert, bind_eq_ok, rejectIf_eq_ok, not_le, ge_iff_le, pure, Except.pure,
    Except.ok.injEq]
  exact ⟨fun ⟨_, h₁, _, h₂, h₃⟩ => ⟨h₁, h₂, h₃.symm⟩, fun ⟨h₁, h₂, h₃⟩ => ⟨(), h₁, (), h₂, h₃.symm⟩⟩

/-- Entering a new object only fails when the budget is exhausted. -/
theorem insert_eq_error {graph : LiveGraph} {object : String} {maximum : Nat} {x : LogError}
    (hnew : object ∉ graph.objects) (h : graph.insert object maximum = .error x) :
    x = .maintenanceBudget maximum := by
  simp only [LiveGraph.insert, bind_eq_error, rejectIf_eq_error, rejectIf_eq_ok] at h
  rcases h with ⟨-, rfl⟩ | ⟨_, -, ⟨hmem, -⟩ | ⟨_, -, h⟩⟩
  · rfl
  · exact absurd hmem hnew
  · cases h

/-- A complete trace finds every segment in order and every page. -/
theorem traceIndexLoop_drafts {maximum : Nat} {graph : LiveGraph}
    {Q : LiveGraph → Notes Body → Prop} (h : self.Forest n.content pages os ss)
    (hnodup : (os ++ graph.objects).Nodup) (hF : F (.maintenanceBudget maximum))
    (hQ : Q ⟨graph.segments ++ ss, os.reverse ++ graph.objects⟩ n) :
    self.Drafts (self.traceIndexLoop maximum pages graph) n Q F := by
  -- over the pages that are left: each is entered once and read
  induction h generalizing graph with
  | nil =>
    rw [traceIndexLoop]
    exact drafting_pure (by simpa using hQ)
  -- the page is entered, unless the budget is used up
  | @leaf r rs segments rest objects page h ih =>
    rw [traceIndexLoop]
    simp only [List.cons_append, List.nodup_cons, List.mem_append, not_or] at hnodup
    refine drafts_check_bind (fun graph' hinsert => ?_) fun x hx => ?_
    · obtain ⟨-, -, rfl⟩ := insert_eq_ok.mp hinsert
      -- a leaf adds its segments
      refine readPage_bind_drafts page ?_
      dsimp only
      split
      · exact drafting_throw hF
      · refine ih ?_ ?_
        · exact List.nodup_middle.mpr (List.nodup_cons.mpr ⟨by simpa using hnodup.1, hnodup.2⟩)
        · simpa using hQ
    · rw [insert_eq_error hnodup.1.2 hx]
      exact hF
  -- a branch puts its children in front
  | @branch r children rs segments objects page h ih =>
    rw [traceIndexLoop]
    simp only [List.cons_append, List.nodup_cons, List.mem_append, not_or] at hnodup
    refine drafts_check_bind (fun graph' hinsert => ?_) fun x hx => ?_
    · obtain ⟨-, -, rfl⟩ := insert_eq_ok.mp hinsert
      refine readPage_bind_drafts page (ih ?_ ?_)
      · exact List.nodup_middle.mpr (List.nodup_cons.mpr ⟨by simpa using hnodup.1, hnodup.2⟩)
      · simpa using hQ
    · rw [insert_eq_error hnodup.1.2 hx]
      exact hF

/-! ### Selecting a run of segments -/

theorem push_offset {sel sel' : Selection} {s : Segment} {more : Bool}
    (h : sel.push s = .ok (sel', more)) : sel'.offset = sel.offset := by
  simp only [Selection.push, bind_eq_ok] at h
  obtain ⟨last, -, h⟩ := h
  split at h
  · cases h; rfl
  · split at h
    · split at h <;> cases h <;> rfl
    · cases h; rfl

theorem push_total (sel : Selection) {s : Segment} (hs : self.ValidSegment s) :
    ∃ out, sel.push s = .ok out := by
  simp only [Selection.push, hs.lastOffset, bind, Except.bind]
  split
  · exact ⟨_, rfl⟩
  · split
    · split <;> exact ⟨_, rfl⟩
    · exact ⟨_, rfl⟩

/-- A segment that ends before the wanted offset is passed over. -/
theorem push_skip {sel : Selection} {s : Segment} (hs : self.ValidSegment s)
    (h : s.endOffset ≤ sel.offset) : sel.push s = .ok (sel, true) := by
  simp only [Selection.push, hs.lastOffset, bind, Except.bind]
  rw [if_pos (by omega)]
  rfl

theorem pushAll_append (sel : Selection) (xs ys : List Segment) :
    sel.pushAll (xs ++ ys) = (sel.pushAll xs >>= fun out =>
      if out.2 then out.1.pushAll ys else .ok (out.1, false)) := by
  induction xs generalizing sel with
  | nil => rfl
  | cons x xs ih =>
    simp only [List.cons_append, Selection.pushAll, bind_assoc]
    rcases sel.push x with e | ⟨sel', more⟩
    · rfl
    · cases more
      · rfl
      · exact ih sel'

theorem pushAll_offset {sel sel' : Selection} {xs : List Segment} {more : Bool}
    (h : sel.pushAll xs = .ok (sel', more)) : sel'.offset = sel.offset := by
  induction xs generalizing sel with
  | nil => cases h; rfl
  | cons x xs ih =>
    simp only [Selection.pushAll, bind_eq_ok, Prod.exists] at h
    obtain ⟨sel₁, more₁, hpush, h⟩ := h
    cases more₁
    · cases h
      exact push_offset hpush
    · exact (ih h).trans (push_offset hpush)

theorem pushAll_total (sel : Selection) {xs : List Segment}
    (hxs : ∀ s ∈ xs, self.ValidSegment s) : ∃ out, sel.pushAll xs = .ok out := by
  induction xs generalizing sel with
  | nil => exact ⟨_, rfl⟩
  | cons x xs ih =>
    obtain ⟨⟨sel', more⟩, hpush⟩ := push_total sel (hxs x (by simp))
    simp only [Selection.pushAll, hpush, bind, Except.bind]
    cases more
    · exact ⟨_, rfl⟩
    · exact ih sel' fun s hs => hxs s (by simp [hs])

theorem pushAll_skip {sel : Selection} {xs : List Segment}
    (hxs : ∀ s ∈ xs, self.ValidSegment s) (h : ∀ s ∈ xs, s.endOffset ≤ sel.offset) :
    sel.pushAll xs = .ok (sel, true) := by
  induction xs with
  | nil => rfl
  | cons x xs ih =>
    simp only [Selection.pushAll, push_skip (hxs x (by simp)) (h x (by simp)), bind, Except.bind]
    exact ih (fun s hs => hxs s (by simp [hs])) fun s hs => h s (by simp [hs])

/-! ### Selecting from a tree -/

/-- A way to run programs in which a reference is answered with its page. -/
structure Reader (log : PartitionLog) (page : PageRef → Page → Prop)
    (Holds : ∀ {α : Type}, Engine α → (α → Prop) → Prop) : Prop where
  pure : ∀ {α : Type} {a : α} {Q : α → Prop}, Q a → Holds (Pure.pure a) Q
  bind : ∀ {α β : Type} {x : Engine α} {f : α → Engine β} {P : α → Prop} {Q : β → Prop},
    Holds x P → (∀ a, P a → Holds (f a) Q) → Holds (x >>= f) Q
  read : ∀ {r : PageRef} {p : Page}, page r p →
    ∃ h, Holds (log.readPage r) fun checked => checked = ⟨p, h⟩

/-- Passing over the children that end before the wanted offset does not change what is
selected. -/
theorem Walk.skip {page : PageRef → Page → Prop}
    (hcheck : ∀ r p, page r p → self.checkPage r p = .ok ()) {children rs : List PageRef}
    {a b : Int} (offset : Int) (htiles : RefTiles children a b)
    (h : Walk page (children ++ rs) os ss) :
    ∃ os' ss', Walk page
        (children.filter (fun r => decide (r.nextOffset > offset)) ++ rs) os' ss' ∧
      os'.length ≤ os.length ∧
      ∀ sel : Selection, sel.offset = offset → sel.pushAll ss = sel.pushAll ss' := by
  -- over the children, from left to right
  induction children generalizing os ss a with
  | nil => exact ⟨os, ss, h, le_rfl, fun _ _ => rfl⟩
  | cons c children ih =>
    obtain ⟨hfirst, hpos, hrest⟩ := htiles
    obtain ⟨os₁, os₂, ss₁, ss₂, rfl, rfl, h₁, h₂⟩ := Walk.split_head h
    obtain ⟨os', ss', h', hlen, hpush⟩ := ih hrest h₂
    have hvalid := Walk.valid hcheck h₁
    -- the child reaches beyond the offset and stays
    by_cases hc : c.nextOffset > offset
    · refine ⟨os₁ ++ os', ss₁ ++ ss', by simpa [hc] using h₁.append h', by simp [hlen], ?_⟩
      intro sel hsel
      rw [pushAll_append, pushAll_append]
      obtain ⟨⟨sel', more⟩, hout⟩ := pushAll_total sel hvalid
      simp only [hout, Bind.bind, Except.bind]
      rw [hpush sel' ((pushAll_offset hout).trans hsel)]
    -- the child ends before it, and its segments would not be selected
    · refine ⟨os', ss', by simpa [hc] using h', by simp; omega, ?_⟩
      intro sel hsel
      have hskip : sel.pushAll ss₁ = .ok (sel, true) := by
        refine pushAll_skip hvalid fun s hs => ?_
        have hbelow := Walk.tiles hcheck h₁ (⟨hfirst, hpos, rfl⟩ : RefTiles [c] a c.nextOffset)
        have := (hbelow.mem hs).2.2
        omega
      rw [pushAll_append, hskip]
      exact hpush sel hsel

section Readers

variable {page : PageRef → Page → Prop} {Holds : ∀ {α : Type}, Engine α → (α → Prop) → Prop}
  (R : self.Reader page Holds)

include R

theorem Reader.check {α : Type} {r : Except LogError α} {a : α} (h : r = .ok a) :
    Holds (Engine.check r) fun b => b = a := by
  subst h
  exact R.pure rfl

/-- The walk through the index selects what a pass over all segments selects. -/
theorem Reader.selectIndexLoop {sel : Selection} (h : Walk page pages os ss) :
    Holds (self.selectIndexLoop pages sel) fun out => sel.pushAll ss = .ok out := by
  have hcheck : ∀ r p, page r p → self.checkPage r p = .ok () := fun r p hpage => (R.read hpage).1
  -- on the number of pages that are left
  suffices ∀ N, ∀ pages os ss sel, os.length ≤ N → Walk page pages os ss →
      Holds (self.selectIndexLoop pages sel) fun out => Selection.pushAll sel ss = .ok out from
    this os.length pages os ss sel le_rfl h
  intro N
  induction N with
  | zero =>
    intro pages os ss sel hlen h
    cases h with
    | nil =>
      rw [PartitionLog.selectIndexLoop]
      exact R.pure rfl
    | leaf hpage h => simp at hlen
    | branch hpage h => simp at hlen
  | succ N ih =>
    intro pages os ss sel hlen h
    cases h with
    | nil =>
      rw [PartitionLog.selectIndexLoop]
      exact R.pure rfl
    -- the segments of a leaf are pushed, or skipped as a whole
    | @leaf r rs segments rest objects hpage h =>
      rw [PartitionLog.selectIndexLoop]
      obtain ⟨hchecked, hread⟩ := R.read hpage
      obtain ⟨-, -, -, htiles, hvalid, -⟩ := checkPage_leaf.mp hchecked
      rw [pushAll_append]
      split
      · rename_i hskip
        rw [pushAll_skip hvalid fun s hs => (htiles.mem hs).2.2.trans hskip]
        exact ih _ _ _ _ (by simpa using hlen) h
      · refine R.bind hread ?_
        rintro _ rfl
        -- the budget ends here, or the walk goes on
        obtain ⟨⟨sel', more⟩, hout⟩ := pushAll_total sel hvalid
        refine R.bind (R.check hout) ?_
        rintro _ rfl
        rw [hout]
        cases more
        · exact R.pure rfl
        · exact ih _ _ _ _ (by simpa using hlen) h
    -- the children of a branch are walked through, or skipped as a whole
    | @branch r children rs segments objects hpage h =>
      rw [PartitionLog.selectIndexLoop]
      obtain ⟨hchecked, hread⟩ := R.read hpage
      obtain ⟨-, -, -, -, -, -, hrow⟩ := checkPage_branch_eq_ok.mp hchecked
      split
      · rename_i hskip
        obtain ⟨os₁, os₂, ss₁, ss₂, rfl, rfl, h₁, h₂⟩ := h.split
        have htiles := Walk.tiles hcheck h₁ hrow.tiles
        rw [pushAll_append, pushAll_skip (Walk.valid hcheck h₁) fun s hs =>
          (htiles.mem hs).2.2.trans hskip]
        exact ih _ _ _ _ (by simp at hlen; omega) h₂
      · obtain ⟨os', ss', h', hle, hpush⟩ := Walk.skip hcheck sel.offset hrow.tiles h
        refine R.bind hread ?_
        rintro _ rfl
        rw [hpush sel rfl]
        exact ih _ _ _ _ (by simp at hlen; omega) h'

/-- A trace within its budget finds every segment in order and every page. -/
theorem Reader.traceIndexLoop {maximum : Nat} {graph : LiveGraph} (h : Walk page pages os ss)
    (hnodup : (os ++ graph.objects).Nodup) (hobjects : os.length + graph.objects.length ≤ maximum)
    (hsegments : graph.segments.length + ss.length ≤ maximum) :
    Holds (self.traceIndexLoop maximum pages graph) fun out =>
      out = ⟨graph.segments ++ ss, os.reverse ++ graph.objects⟩ := by
  -- over the walk, with what the graph has room for
  induction h generalizing graph with
  | nil =>
    rw [PartitionLog.traceIndexLoop]
    exact R.pure (by simp)
  -- the page is new and there is room for it
  | @leaf r rs segments rest objects hpage h ih =>
    rw [PartitionLog.traceIndexLoop]
    simp only [List.cons_append, List.nodup_cons, List.mem_append, not_or, List.length_cons,
      List.length_append] at hnodup hobjects hsegments
    have hinsert : graph.insert r.object maximum = .ok _ :=
      insert_eq_ok.mpr ⟨by omega, hnodup.1.2, rfl⟩
    refine R.bind (R.check hinsert) ?_
    rintro _ rfl
    obtain ⟨hchecked, hread⟩ := R.read hpage
    refine R.bind hread ?_
    rintro _ rfl
    dsimp only
    -- so is there for its segments
    rw [if_neg (by omega)]
    have hrest := @ih ⟨graph.segments ++ segments, r.object :: graph.objects⟩
      (List.nodup_middle.mpr (List.nodup_cons.mpr ⟨by simpa using hnodup.1, hnodup.2⟩))
      (by simp only [List.length_cons]; omega) (by simp only [List.length_append]; omega)
    simpa using hrest
  -- a branch adds itself only
  | @branch r children rs segments objects hpage h ih =>
    rw [PartitionLog.traceIndexLoop]
    simp only [List.cons_append, List.nodup_cons, List.mem_append, not_or, List.length_cons]
      at hnodup hobjects
    have hinsert : graph.insert r.object maximum = .ok _ :=
      insert_eq_ok.mpr ⟨by omega, hnodup.1.2, rfl⟩
    refine R.bind (R.check hinsert) ?_
    rintro _ rfl
    obtain ⟨hchecked, hread⟩ := R.read hpage
    refine R.bind hread ?_
    rintro _ rfl
    have hrest := @ih { graph with objects := r.object :: graph.objects }
      (List.nodup_middle.mpr (List.nodup_cons.mpr ⟨by simpa using hnodup.1, hnodup.2⟩))
      (by simp only [List.length_cons]; omega) hsegments
    simpa using hrest

theorem Reader.traceIndex {maximum : Nat} {root : Root} (h : Walk page root.tree.toList os ss)
    (hnodup : os.Nodup) (hobjects : os.length ≤ maximum)
    (hsegments : ss.length + root.tail.length ≤ maximum) :
    Holds (self.traceIndex root ⟨[], []⟩ maximum) fun out => out = ⟨ss ++ root.tail, os.reverse⟩ := by
  unfold PartitionLog.traceIndex
  refine R.bind (R.traceIndexLoop h (by simpa using hnodup) (by simpa using hobjects)
    (by simp only [List.length_nil]; omega)) ?_
  rintro _ rfl
  dsimp only
  rw [if_neg (by simp only [List.nil_append]; omega)]
  exact R.pure (by simp)

/-- The segments of a root are selected like a flat list. -/
theorem Reader.indexedSegments {root : Root} {sel : Selection}
    (h : Walk page root.tree.toList os ss) (htail : ∀ s ∈ root.tail, self.ValidSegment s) :
    Holds (self.indexedSegments root sel) fun sel' =>
      ∃ more, sel.pushAll (ss ++ root.tail) = .ok (sel', more) := by
  unfold PartitionLog.indexedSegments
  refine R.bind (R.selectIndexLoop h) ?_
  rintro ⟨sel', more⟩ hout
  rw [pushAll_append, hout]
  cases more
  · exact R.pure ⟨false, rfl⟩
  · obtain ⟨⟨sel'', more'⟩, hrest⟩ := pushAll_total sel' htail
    refine R.bind (R.check hrest) ?_
    rintro _ rfl
    exact R.pure ⟨more', hrest⟩

end Readers

/-- A draft is answered with the pages of its notes. -/
theorem drafts_reader (n : Notes Body) (F : LogError → Prop) :
    self.Reader (self.StoredPage n.content) fun x Q => self.Drafts x n (fun a n' => Q a ∧ n' = n) F where
  pure := fun hQ => drafting_pure ⟨hQ, rfl⟩
  bind := fun hx hf => drafting_bind hx fun a n' _ ⟨ha, hn⟩ => by
    rw [hn]
    exact hf a ha
  read := fun hpage => ⟨hpage.check, readPage_drafts hpage ⟨rfl, rfl⟩⟩

/-- The segments of a root in a draft are selected like a flat list. -/
theorem indexedSegments_drafts {root : Root} {sel : Selection}
    {Q : Selection → Notes Body → Prop}
    (h : self.Forest n.content root.tree.toList os ss)
    (htail : ∀ s ∈ root.tail, self.ValidSegment s)
    (hQ : ∀ out, sel.pushAll (ss ++ root.tail) = .ok out → Q out.1 n) :
    self.Drafts (self.indexedSegments root sel) n Q F := by
  refine drafting_mono ((drafts_reader n F).indexedSegments h htail) ?_ fun _ => id
  rintro sel' n' - ⟨⟨more, hout⟩, hn⟩
  rw [hn]
  exact hQ _ hout

end Traversals

/-! ## A store that stands still -/

/-- What a program computes in a store with this content, while nobody changes it. -/
def evaluate (log : PartitionLog) (content : String → Option Body) {α : Type} (x : Engine α) :
    Except LogError α := x.run.eval (frozen log.crates.size content)

/-- In a store with this content, `read_page` answers the reference with this page. -/
def Answered (log : PartitionLog) (content : String → Option Body) (r : PageRef) (page : Page) :
    Prop := ∃ h, log.evaluate content (log.readPage r) = .ok ⟨page, h⟩

section Still

variable {α β : Type}

@[simp] theorem evaluate_pure (a : α) : self.evaluate content (pure a) = .ok a := rfl

@[simp] theorem evaluate_check (r : Except LogError α) :
    self.evaluate content (Engine.check r) = r := rfl

private theorem eval_bind {p : Prog (Cmd Body) Resp α} {f : α → Prog (Cmd Body) Resp β}
    (answer : (c : Cmd Body) → Resp c) : (p >>= f).eval answer = (f (p.eval answer)).eval answer := by
  induction p with
  | ret a => rfl
  | call c k ih => exact ih (answer c)

theorem evaluate_bind (x : Engine α) (f : α → Engine β) :
    self.evaluate content (x >>= f) = (self.evaluate content x >>= fun a =>
      self.evaluate content (f a)) := by
  have hbind := eval_bind (p := x.run) (f := ExceptT.bindCont f)
    (frozen self.crates.size content)
  refine hbind.trans ?_
  unfold evaluate
  cases x.run.eval (frozen self.crates.size content) <;> rfl

/-- A program in a store that stands still is answered with the pages there. -/
theorem evaluate_reader (log : PartitionLog) (content : String → Option Body) :
    log.Reader (log.Answered content) fun x Q => ∃ a, log.evaluate content x = .ok a ∧ Q a where
  pure := fun hQ => ⟨_, rfl, hQ⟩
  bind := by
    rintro α β x f P Q ⟨a, ha, hP⟩ hf
    obtain ⟨b, hb, hQ⟩ := hf a hP
    exact ⟨b, by rw [evaluate_bind, ha]; exact hb, hQ⟩
  read := fun ⟨h, hread⟩ => ⟨h, _, hread, rfl⟩

@[simp] theorem evaluate_get (path : String) :
    self.evaluate content (Engine.perform (.get path)) =
      .ok (frozen self.crates.size content (.get path)) := rfl

theorem yields_of_evaluate {x : Engine α} {a : α} (h : self.evaluate content x = .ok a) :
    Yields x a := by
  have hreturns := Prog.returns_eval (frozen self.crates.size content) x.run
  rwa [show x.run.eval (frozen self.crates.size content) = .ok a from h] at hreturns

/-- The pages that are stored are answered. -/
theorem StoredPage.answered {r : PageRef} {page : Page} (h : self.StoredPage content r page) :
    self.Answered content r page := by
  refine ⟨h.check, ?_⟩
  have hbody : content (self.crates.pathFrom r.object) = some (.page page) := by
    rw [h.path, h.body]
  rw [readPage, evaluate_bind]
  refine bind_eq_ok.mpr ⟨(), h.reference, ?_⟩
  rw [evaluate_bind]
  refine bind_eq_ok.mpr ⟨.ok ⟨self.crates.size (.page page), .page page, .ok (.page page)⟩, ?_, ?_⟩
  · rw [evaluate_get]
    simp only [frozen, hbody]
  · rw [evaluate_bind]
    exact bind_eq_ok.mpr ⟨_, rfl, h.accept⟩

theorem Walk.imp {page page' : PageRef → Page → Prop} {pages : List PageRef} {os : List String}
    {ss : List Segment} (h : Walk page pages os ss)
    (himp : ∀ r p, r.object ∈ os → page r p → page' r p) : Walk page' pages os ss := by
  induction h with
  | nil => exact .nil
  | leaf hpage _ ih =>
    exact .leaf (himp _ _ (by simp) hpage) (ih fun r p hr => himp r p (by simp [hr]))
  | branch hpage _ ih =>
    exact .branch (himp _ _ (by simp) hpage) (ih fun r p hr => himp r p (by simp [hr]))

end Still

end PartitionLog

end Walstream.Log

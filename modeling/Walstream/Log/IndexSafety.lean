import Walstream.Interaction.Answers
import Walstream.Log.ReferenceIndex

/-!
# Index traversal fails closed

The traversals of the index against a store whose answers are arbitrary: pages may be
forged, cyclic, shared or contradict each other, and reads may fail. What the checks of one
page say (`checkPage_leaf`, `checkPage_branch_eq_ok`) is enough: a stack of references that
tile a range stays one, and its weight goes down with every page that is read.
-/

namespace Walstream.Log

open Interaction Tiling

namespace PartitionLog

variable {self : PartitionLog}

/-! ## Single requests -/

/-- Reading a page is one request. -/
theorem readPage_doneWithin (r : PageRef) : DoneWithin (self.readPage r) 1 :=
  doneWithin_check_bind fun _ _ =>
    doneWithin_perform fun _ => doneWithin_orStore fun _ => doneWithin_check

/-! ## Complete traversal -/

/-- The weight of a stack of references: no traversal reads more pages. -/
def pageWeight (stack : List PageRef) : Nat := stackWeight (stack.map (·.level))

theorem pageWeight_cons (r : PageRef) (stack : List PageRef) :
    pageWeight (r :: stack) = (pageEntries + 1) ^ r.level + pageWeight stack := by
  simp [pageWeight, stackWeight_cons]

theorem pageWeight_pop (r : PageRef) (stack : List PageRef) :
    pageWeight stack < pageWeight (r :: stack) := stackWeight_lt_cons r.level _

/-- Some of the children of a page that was read weigh less than the page. -/
theorem pageWeight_children (stack : List PageRef) {r : PageRef} {children kept : List PageRef}
    (h : self.checkPage r (.branch children) = .ok ()) (hkept : kept.Sublist children) :
    pageWeight (kept ++ stack) < pageWeight (r :: stack) := by
  have hle : stackWeight (kept.map (·.level)) ≤ stackWeight (children.map (·.level)) :=
    stackWeight_sublist (hkept.map _)
  have hlt := stackWeight_children (self.checkPage_levels h).1 (self.checkPage_levels h).2
  rw [pageWeight_cons]
  simp only [pageWeight, List.map_append, stackWeight_append]
  omega

/-- The tree of a valid root can be walked by reading at most 65¹⁰ pages. -/
theorem ValidRoot.pageWeight_le {root : Root} (h : self.ValidRoot root) :
    pageWeight root.tree.toList ≤ (pageEntries + 1) ^ maxIndexLevel := by
  rcases htree : root.tree with _ | r
  · exact Nat.zero_le _
  · have hlevel := (validatePageRef_eq_ok.mp (h.tree r htree).1).2.1
    have hweight : pageWeight (some r).toList = (pageEntries + 1) ^ r.level := by
      simp [pageWeight, stackWeight]
    rw [hweight]
    exact Nat.pow_le_pow_right (by simp [pageEntries]) hlevel

theorem traceIndexLoop_doneWithin (maximum : Nat) (stack : List PageRef) (graph : LiveGraph) :
    DoneWithin (self.traceIndexLoop maximum stack graph) (pageWeight stack) := by
  induction hweight : pageWeight stack using Nat.strong_induction_on generalizing stack graph with
  | _ weight ih =>
  subst hweight
  cases stack with
  | nil =>
    rw [traceIndexLoop]
    exact doneWithin_pure
  | cons r stack =>
    rw [traceIndexLoop]
    have hpop := pageWeight_pop r stack
    refine doneWithin_check_bind fun graph _ => ?_
    refine doneWithin_bind (n := pageWeight (r :: stack) - 1) (readPage_doneWithin r) ?_ (by omega)
    rintro ⟨segments | children, hpage⟩ -
    · dsimp only
      split
      · exact doneWithin_throw
      · exact (ih _ hpop stack _ rfl).mono (by omega)
    · have hchildren := pageWeight_children stack hpage (List.Sublist.refl _)
      exact (ih _ hchildren (children ++ stack) _ rfl).mono (by omega)

/-- A complete traversal that succeeds has found segments that tile the range of the stack,
as many as the references promise. -/
theorem traceIndexLoop_yields {maximum : Nat} {stack : List PageRef} {graph graph' : LiveGraph}
    {a b : Int} (hstack : RefTiles stack a b)
    (h : Yields (self.traceIndexLoop maximum stack graph) graph') :
    ∃ segments, graph'.segments = graph.segments ++ segments ∧ SegmentTiles segments a b ∧
      segments.length = countBelow stack := by
  -- on the weight of the stack: a page is replaced by what it lists
  induction hweight : pageWeight stack using Nat.strong_induction_on
    generalizing stack graph a with
  | _ weight ih =>
  subst hweight
  cases stack with
  | nil =>
    rw [traceIndexLoop] at h
    obtain rfl := yields_pure h
    exact ⟨[], by simp, hstack, rfl⟩
  | cons r stack =>
    rw [traceIndexLoop] at h
    obtain ⟨hfirst, -, hrest⟩ := hstack
    obtain ⟨entered, hentered, h⟩ := yields_bind h
    -- a page that is met again is refused
    obtain ⟨-, -, rfl⟩ := insert_eq_ok.mp (yields_check hentered)
    obtain ⟨⟨page, hpage⟩, -, h⟩ := yields_bind h
    cases page with
    -- the segments of a leaf tile its range, and there are as many as it says
    | leaf segments =>
      obtain ⟨hlength, hcount, -, htiles, -⟩ := checkPage_leaf.mp hpage
      dsimp only at h
      split at h
      · exact absurd h not_yields_throw
      · obtain ⟨rest, heq, hrest, hlen⟩ := ih _ (pageWeight_pop r stack) hrest h rfl
        refine ⟨segments ++ rest, by simpa using heq, (hfirst ▸ htiles).append hrest, ?_⟩
        rw [List.length_append, hlen, countBelow_cons, hlength, hcount]
    -- the children tile the range of their branch
    | branch children =>
      obtain ⟨-, -, hcount, -, -, -, hrow⟩ := checkPage_branch_eq_ok.mp hpage
      have hweight := pageWeight_children stack hpage (List.Sublist.refl _)
      obtain ⟨segments, heq, htiles, hlen⟩ := ih _ hweight
        ((hfirst ▸ hrow.tiles).append hrest) h rfl
      refine ⟨segments, heq, htiles, ?_⟩
      rw [hlen, countBelow_append, countBelow_cons, hcount]

/-! ## Selection by offset -/

/-- The selection so far, when the walk for `offset` has come to offset `a`: segments that
end there and begin with the one that contains `offset`, or none before that segment. -/
def Gathered (offset : Int) (sel : Selection) (a : Int) : Prop :=
  sel.offset = offset ∧ ∃ first, SegmentTiles sel.segments first a ∧ first ≤ offset ∧
    ∀ s ∈ sel.segments.head?, offset < s.endOffset

variable {offset : Int}

/-- Nothing is selected before the walk has passed the wanted offset. -/
theorem Gathered.eq_nil {sel : Selection} {a : Int} (h : Gathered offset sel a) (ha : a ≤ offset) :
    sel.segments = [] := by
  obtain ⟨-, first, htiles, -, hhead⟩ := h
  rcases hsegments : sel.segments with _ | ⟨s, segments⟩
  · rfl
  · rw [hsegments] at htiles hhead
    have hlt := hhead s rfl
    have hle := htiles.2.2.le
    omega

/-- The walk may pass over what ends before the wanted offset. -/
theorem Gathered.skip {sel : Selection} {a c : Int} (h : Gathered offset sel a) (hac : a ≤ c)
    (hc : c ≤ offset) : Gathered offset sel c := by
  have hnil := h.eq_nil (hac.trans hc)
  exact ⟨h.1, c, by rw [hnil]; rfl, hc, by simp [hnil]⟩

theorem gathered_new {a : Int} (maximumBytes : Nat) (allow : Bool) (h : a ≤ offset) :
    Gathered offset (Selection.new offset maximumBytes allow) a :=
  ⟨rfl, a, rfl, h, by simp [Selection.new]⟩

/-- Adding the next segment, unless it ends before the wanted offset. -/
private theorem Gathered.snoc {sel sel' : Selection} {s : Segment}
    (h : Gathered offset sel s.baseOffset) (hpos : s.baseOffset < s.endOffset)
    (hend : offset < s.endOffset) (hsegments : sel'.segments = sel.segments ++ [s])
    (hoffset : sel'.offset = sel.offset) : Gathered offset sel' s.endOffset := by
  obtain ⟨heq, first, htiles, hfirst, hhead⟩ := h
  refine ⟨hoffset.trans heq, first, ?_, hfirst, ?_⟩
  · rw [hsegments]
    exact htiles.append ⟨rfl, hpos, rfl⟩
  · rw [hsegments]
    rcases hold : sel.segments with _ | ⟨t, ts⟩
    · simpa using hend
    · simpa using hhead t (by rw [hold]; rfl)

theorem push_gathers {sel sel' : Selection} {s : Segment} {more : Bool}
    (hs : self.ValidSegment s) (h : Gathered offset sel s.baseOffset)
    (hpush : sel.push s = .ok (sel', more)) :
    (more = true → Gathered offset sel' s.endOffset) ∧ ∃ e, Gathered offset sel' e := by
  have hpos : s.baseOffset < s.endOffset := by
    have := hs.count_pos
    unfold Segment.endOffset
    omega
  have heq := h.1
  simp only [Selection.push, hs.lastOffset, bind, Except.bind] at hpush
  split at hpush
  · cases hpush
    have := h.skip hpos.le (by omega)
    exact ⟨fun _ => this, _, this⟩
  · split at hpush
    · split at hpush
      · cases hpush
        exact ⟨fun hmore => absurd hmore Bool.false_ne_true, _, h.snoc hpos (by omega) rfl rfl⟩
      · cases hpush
        exact ⟨fun hmore => absurd hmore Bool.false_ne_true, _, h⟩
    · cases hpush
      refine ⟨fun _ => ?_, s.endOffset, ?_⟩
      all_goals exact h.snoc hpos (by omega) rfl rfl

theorem pushAll_gathers {sel sel' : Selection} {xs : List Segment} {more : Bool} {a b : Int}
    (hvalid : ∀ s ∈ xs, self.ValidSegment s) (htiles : SegmentTiles xs a b)
    (h : Gathered offset sel a) (hpush : sel.pushAll xs = .ok (sel', more)) :
    (more = true → Gathered offset sel' b) ∧ ∃ e, Gathered offset sel' e := by
  induction xs generalizing sel a with
  | nil =>
    cases hpush
    obtain rfl := tiles_nil.mp htiles
    exact ⟨fun _ => h, _, h⟩
  | cons x xs ih =>
    obtain ⟨rfl, -, hrest⟩ := htiles
    simp only [Selection.pushAll, bind_eq_ok, Prod.exists] at hpush
    obtain ⟨sel₁, more₁, hfirst, hpush⟩ := hpush
    obtain ⟨hmore, e, he⟩ := push_gathers (hvalid x (by simp)) h hfirst
    cases more₁
    · cases hpush
      exact ⟨fun hmore => absurd hmore Bool.false_ne_true, e, he⟩
    · exact ih (fun s hs => hvalid s (by simp [hs])) hrest (hmore rfl) hpush

/-- The references that end after an offset tile the end of the range. -/
theorem filter_tiles {children : List PageRef} {a b : Int} (offset : Int)
    (h : RefTiles children a b) :
    ∃ c, RefTiles (children.filter fun r => r.nextOffset > offset) c b ∧ a ≤ c ∧
      (c = a ∨ c ≤ offset) := by
  obtain ⟨before, after, rfl, hbefore, hafter⟩ := h.filter_sublist offset
  obtain ⟨c, hfront, hback⟩ := tiles_append.mp h
  refine ⟨c, ?_, hfront.le, ?_⟩
  · have hnone : before.filter (fun r => decide (r.nextOffset > offset)) = [] :=
      List.filter_eq_nil_iff.mpr fun r hr => by simpa using hbefore r hr
    have hall : after.filter (fun r => decide (r.nextOffset > offset)) = after :=
      List.filter_eq_self.mpr fun r hr => by simpa using hafter r hr
    rwa [List.filter_append, hnone, hall, List.nil_append]
  · rcases List.eq_nil_or_concat before with rfl | ⟨rs, r, rfl⟩
    · exact .inl hfront.symm
    · rw [List.concat_eq_append] at hfront hbefore
      rw [← hfront.getLast]
      exact .inr (hbefore r (by simp))

theorem selectIndexLoop_doneWithin (stack : List PageRef) (sel : Selection) :
    DoneWithin (self.selectIndexLoop stack sel) (pageWeight stack) := by
  induction hweight : pageWeight stack using Nat.strong_induction_on generalizing stack sel with
  | _ weight ih =>
  subst hweight
  cases stack with
  | nil =>
    rw [selectIndexLoop]
    exact doneWithin_pure
  | cons r stack =>
    rw [selectIndexLoop]
    have hpop := pageWeight_pop r stack
    split
    · exact (ih _ hpop stack sel rfl).mono hpop.le
    refine doneWithin_bind (n := pageWeight (r :: stack) - 1) (readPage_doneWithin r) ?_ (by omega)
    rintro ⟨segments | children, hpage⟩ -
    · refine doneWithin_check_bind fun out _ => ?_
      obtain ⟨sel', more⟩ := out
      cases more
      · exact doneWithin_pure
      · exact (ih _ hpop stack sel' rfl).mono (by omega)
    · have hchildren := pageWeight_children stack hpage
        (List.filter_sublist (p := fun c => decide (c.nextOffset > sel.offset)))
      exact (ih _ hchildren _ sel rfl).mono (by omega)

/-- A walk that succeeds has selected consecutive segments from the wanted offset on. -/
theorem selectIndexLoop_yields {stack : List PageRef} {sel sel' : Selection} {more : Bool}
    {a b : Int} (hstack : RefTiles stack a b) (hsel : Gathered offset sel a)
    (h : Yields (self.selectIndexLoop stack sel) (sel', more)) :
    (more = true → Gathered offset sel' b) ∧ ∃ e, Gathered offset sel' e := by
  -- on the weight of the stack, along which the selection grows
  induction hweight : pageWeight stack using Nat.strong_induction_on
    generalizing stack sel a with
  | _ weight ih =>
  subst hweight
  cases stack with
  | nil =>
    rw [selectIndexLoop] at h
    cases yields_pure h
    obtain rfl := tiles_nil.mp hstack
    exact ⟨fun _ => hsel, _, hsel⟩
  | cons r stack =>
    rw [selectIndexLoop] at h
    obtain ⟨hfirst, hpos, hrest⟩ := hstack
    -- the page ends before the offset
    split at h
    · rename_i hskip
      exact ih _ (pageWeight_pop r stack) hrest (hsel.skip hpos.le (hsel.1 ▸ hskip)) h rfl
    obtain ⟨⟨page, hpage⟩, -, h⟩ := yields_bind h
    cases page with
    | leaf segments =>
      obtain ⟨-, -, -, htiles, hvalid, -⟩ := checkPage_leaf.mp hpage
      obtain ⟨⟨sel₁, more₁⟩, hcheck, h⟩ := yields_bind h
      obtain ⟨hmore, e, he⟩ := pushAll_gathers hvalid (hfirst ▸ htiles) hsel (yields_check hcheck)
      -- the selection ends within the leaf, or goes on behind it
      cases more₁
      · cases yields_pure h
        exact ⟨fun hmore => absurd hmore Bool.false_ne_true, e, he⟩
      · exact ih _ (pageWeight_pop r stack) hrest (hmore rfl) h rfl
    | branch children =>
      obtain ⟨-, -, -, -, -, -, hrow⟩ := checkPage_branch_eq_ok.mp hpage
      have hweight := pageWeight_children stack hpage
        (List.filter_sublist (p := fun c => decide (c.nextOffset > sel.offset)))
      -- the children that are skipped end before the offset
      obtain ⟨c, htiles, hle, hc⟩ := filter_tiles sel.offset (hfirst ▸ hrow.tiles)
      rw [hsel.1] at hc
      have hgathered : Gathered offset sel c := by
        rcases hc with rfl | hc
        · exact hsel
        · exact hsel.skip hle hc
      exact ih _ hweight (htiles.append hrest) hgathered h rfl

/-! ## Both traversals of a valid root -/

theorem traceIndex_yields {root : Root} {graph graph' : LiveGraph} {maximum : Nat}
    (hroot : self.ValidRoot root) (h : Yields (self.traceIndex root graph maximum) graph') :
    ∃ segments, graph'.segments = graph.segments ++ segments ∧
      SegmentTiles segments root.startOffset root.nextOffset ∧
      segments.length = root.treeCount + root.tail.length := by
  unfold traceIndex at h
  obtain ⟨traced, htraced, h⟩ := yields_bind h
  obtain ⟨segments, heq, htiles, hlength⟩ := traceIndexLoop_yields hroot.tree_tiles htraced
  split at h
  · exact absurd h not_yields_throw
  · obtain rfl := yields_pure h
    refine ⟨segments ++ root.tail, by simp [heq], htiles.append hroot.tail, ?_⟩
    have hcount : countBelow root.tree.toList = root.treeCount := by
      unfold Root.treeCount
      cases root.tree <;> simp
    rw [List.length_append, hlength, hcount]

theorem indexedSegments_yields {root : Root} {sel sel' : Selection}
    (hroot : self.ValidRoot root) (hsel : Gathered offset sel root.startOffset)
    (h : Yields (self.indexedSegments root sel) sel') : ∃ e, Gathered offset sel' e := by
  unfold indexedSegments at h
  obtain ⟨⟨sel₁, more⟩, hloop, h⟩ := yields_bind h
  obtain ⟨hmore, e, he⟩ := selectIndexLoop_yields hroot.tree_tiles hsel hloop
  cases more
  · obtain rfl := yields_pure h
    exact ⟨e, he⟩
  · obtain ⟨⟨sel₂, more₂⟩, hcheck, h⟩ := yields_bind h
    obtain rfl := yields_pure h
    exact (pushAll_gathers hroot.tail_valid hroot.tail (hmore rfl) (yields_check hcheck)).2

/-- **Index traversal fails closed.** For a root that `Root::validate` accepts, whatever the
store answers: both traversals end within 65¹⁰ requests; a complete one that succeeds
returns the promised number of segments and they tile the root's range; a selection that
succeeds consists of consecutive segments, the first of which contains the wanted
offset. -/
theorem index_traversal_fails_closed (log : PartitionLog) (root : Root) (graph : LiveGraph)
    (maximum maximumBytes : Nat) (offset : Int) (allow : Bool)
    (hroot : log.validateRoot root = .ok ()) (hstart : root.startOffset ≤ offset) :
    DoneWithin (log.traceIndex root graph maximum) ((pageEntries + 1) ^ maxIndexLevel) ∧
      DoneWithin (log.indexedSegments root (Selection.new offset maximumBytes allow))
        ((pageEntries + 1) ^ maxIndexLevel) ∧
      (∀ graph', Yields (log.traceIndex root graph maximum) graph' →
        ∃ segments, graph'.segments = graph.segments ++ segments ∧
          SegmentTiles segments root.startOffset root.nextOffset ∧
          segments.length = root.treeCount + root.tail.length) ∧
      ∀ sel, Yields (log.indexedSegments root (Selection.new offset maximumBytes allow)) sel →
        (∃ a b, SegmentTiles sel.segments a b) ∧
          ∀ s ∈ sel.segments.head?, s.baseOffset ≤ offset ∧ offset < s.endOffset := by
  have hvalid := validateRoot_eq_ok.mp hroot
  refine ⟨?_, ?_, fun graph' h => traceIndex_yields hvalid h, fun sel h => ?_⟩
  -- every page is visited once, and the weight counts the pages that are possible
  · refine doneWithin_bind (n := 0) (traceIndexLoop_doneWithin maximum _ graph) (fun _ _ => ?_)
      hvalid.pageWeight_le
    split
    · exact doneWithin_throw
    · exact doneWithin_pure
  · refine doneWithin_bind (n := 0) (selectIndexLoop_doneWithin _ _) ?_ hvalid.pageWeight_le
    rintro ⟨sel, more⟩ -
    cases more
    · exact doneWithin_pure
    · exact doneWithin_check_bind fun _ _ => doneWithin_pure
  -- the segments that are selected start where the search did
  · obtain ⟨e, -, a, htiles, ha, hhead⟩ :=
      indexedSegments_yields hvalid (gathered_new maximumBytes allow hstart) h
    refine ⟨⟨a, e, htiles⟩, fun s hs => ⟨?_, hhead s hs⟩⟩
    rcases hsegments : sel.segments with _ | ⟨t, ts⟩
    · simp [hsegments] at hs
    · rw [hsegments] at htiles hs
      obtain rfl : t = s := by simpa using hs
      rw [htiles.head]
      exact ha

open Reference in
/-- Both traversals of an index with a tree, from an offset in its second leaf into the tail. -/
theorem index_traversal_fails_closed_reference :
    DoneWithin (log.traceIndex treeRoot ⟨[], []⟩ 1000) ((pageEntries + 1) ^ maxIndexLevel) ∧
    DoneWithin (log.indexedSegments treeRoot (Selection.new 100 2010 true))
      ((pageEntries + 1) ^ maxIndexLevel) ∧
    (∃ graph, Yields (log.traceIndex treeRoot ⟨[], []⟩ 1000) graph ∧
      ∃ segments, graph.segments = [] ++ segments ∧ SegmentTiles segments 0 130 ∧
        segments.length = 128 + 2) ∧
    ∃ sel, Yields (log.indexedSegments treeRoot (Selection.new 100 2010 true)) sel ∧
      sel.segments.length = 29 ∧ (∃ a b, SegmentTiles sel.segments a b) ∧
        ∀ s ∈ sel.segments.head?, s.baseOffset ≤ 100 ∧ 100 < s.endOffset := by
  obtain ⟨htrace, hselect, htraced, hselected⟩ :=
    index_traversal_fails_closed log treeRoot ⟨[], []⟩ 1000 2010 100 true treeRoot_valid (by decide)
  obtain ⟨graph, hgraph, -⟩ := (evaluate_reader log indexPages).traceIndex tree_answered
    tree_objects_nodup (show _ ≤ 1000 by decide) (by simp [treeRoot])
  obtain ⟨sel, hsel, more, hpush⟩ := (evaluate_reader log indexPages).indexedSegments tree_answered
    (validateRoot_eq_ok.mp treeRoot_valid).tail_valid
  have hlength : sel.segments.length = 29 := by
    have hcount : ((Selection.new 100 2010 true).pushAll (segmentsFrom 0 ++ segmentsFrom 64 ++
        treeRoot.tail)).toOption.map (·.1.segments.length) = some 29 := by decide +kernel
    rw [hpush] at hcount
    exact Option.some.inj hcount
  have hgraph := yields_of_evaluate hgraph
  have hsel := yields_of_evaluate hsel
  exact ⟨htrace, hselect, ⟨graph, hgraph, htraced graph hgraph⟩, sel, hsel, hlength,
    hselected sel hsel⟩

end PartitionLog

end Walstream.Log

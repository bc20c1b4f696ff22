import Walstream.Log.ReferenceIndex

/-!
# What a fetch selects

The walk through the index of a root selects what one pass over its flattened segments
selects, and that is: from the segment with the wanted offset on, the longest run that fits
the budget, or that one segment alone where the exception for an oversized batch applies.
-/

namespace Walstream.Log

open Interaction Tiling

namespace PartitionLog

variable {self : PartitionLog} {content : String → Option Body}

/-! ## The longest run that fits -/

/-- The bytes of the segments' record objects. -/
def totalBytes (segments : List Segment) : Nat := (segments.map (·.byteLength)).sum

@[simp] theorem totalBytes_nil : totalBytes [] = 0 := rfl

@[simp] theorem totalBytes_cons (s : Segment) (segments : List Segment) :
    totalBytes (s :: segments) = s.byteLength + totalBytes segments := by simp [totalBytes]

/-- `k` is the length of the longest run at the start of `segments` that fits the budget. -/
structure LongestRun (segments : List Segment) (budget k : Nat) : Prop where
  le : k ≤ segments.length
  fits : totalBytes (segments.take k) ≤ budget
  longest : ∀ j ≤ segments.length, totalBytes (segments.take j) ≤ budget → j ≤ k

theorem longestRun_nil (budget : Nat) : LongestRun [] budget 0 :=
  ⟨le_rfl, Nat.zero_le _, fun _ hj _ => hj⟩

theorem longestRun_zero {s : Segment} {segments : List Segment} {budget : Nat}
    (h : budget < s.byteLength) : LongestRun (s :: segments) budget 0 where
  le := Nat.zero_le _
  fits := Nat.zero_le _
  longest := fun j _ hfits => by
    cases j with
    | zero => exact le_rfl
    | succ j =>
      simp only [List.take_succ_cons, totalBytes_cons] at hfits
      omega

theorem LongestRun.cons {s : Segment} {segments : List Segment} {budget k : Nat}
    (hs : s.byteLength ≤ budget) (h : LongestRun segments (budget - s.byteLength) k) :
    LongestRun (s :: segments) budget (k + 1) where
  le := Nat.succ_le_succ h.le
  fits := by
    have := h.fits
    simp only [List.take_succ_cons, totalBytes_cons]
    omega
  longest := fun j hj hfits => by
    cases j with
    | zero => exact Nat.zero_le _
    | succ j =>
      simp only [List.take_succ_cons, totalBytes_cons] at hfits
      exact Nat.succ_le_succ (h.longest j (Nat.le_of_succ_le_succ hj) (by omega))

/-- What is to be selected from the segments from the wanted offset on. -/
inductive Selects (segments : List Segment) (budget : Nat) (allow : Bool) :
    List Segment → Bool → Prop where
  /-- The first segment fits. -/
  | run {k : Nat} (h : LongestRun segments budget k) (hpos : 0 < k) :
      Selects segments budget allow (segments.take k) false
  /-- The first segment does not fit, and is selected as an exception. -/
  | oversized {first : Segment} (hfirst : segments.head? = some first)
      (h : budget < first.byteLength) (hallow : allow = true) :
      Selects segments budget allow [first] true
  /-- The first segment does not fit. -/
  | nothing {first : Segment} (hfirst : segments.head? = some first)
      (h : budget < first.byteLength) (hallow : allow = false) :
      Selects segments budget allow [] false

/-! ## The selection -/

/-- The selection with one more segment. -/
private def taken (sel : Selection) (s : Segment) : Selection :=
  { sel with remaining := sel.remaining - s.byteLength, segments := sel.segments ++ [s] }

private theorem push_take {sel : Selection} {s : Segment} (hs : self.ValidSegment s)
    (hend : sel.offset < s.endOffset) (hfits : s.byteLength ≤ sel.remaining) :
    sel.push s = .ok (taken sel s, decide (sel.remaining - s.byteLength ≠ 0)) := by
  simp only [Selection.push, hs.lastOffset, bind, Except.bind]
  rw [if_neg (by omega), if_neg (by omega)]
  rfl

private theorem push_full (sel : Selection) {s : Segment} (hs : self.ValidSegment s)
    (hend : sel.offset < s.endOffset) (hfits : sel.remaining < s.byteLength)
    (hstop : sel.segments ≠ [] ∨ sel.allowOversized = false) : sel.push s = .ok (sel, false) := by
  simp only [Selection.push, hs.lastOffset, bind, Except.bind]
  rw [if_neg (by omega), if_pos hfits, if_neg]
  · rfl
  · rcases hstop with hstop | hstop <;> simp [hstop]

private theorem push_oversized (sel : Selection) {s : Segment} (hs : self.ValidSegment s)
    (hend : sel.offset < s.endOffset) (hfits : sel.remaining < s.byteLength)
    (hnone : sel.segments = []) (hallow : sel.allowOversized = true) :
    sel.push s = .ok ({ sel with segments := [s], oversizedFirstBatch := true }, false) := by
  simp only [Selection.push, hs.lastOffset, bind, Except.bind]
  rw [if_neg (by omega), if_pos hfits, if_pos ⟨hnone, hallow⟩, hnone]
  rfl

/-- From the wanted offset on, a selection takes the longest run that fits the rest of its
budget, unless the exception applies. -/
private theorem pushAll_run (sel : Selection) {segments : List Segment}
    (hvalid : ∀ s ∈ segments, self.ValidSegment s) (hend : ∀ s ∈ segments, sel.offset < s.endOffset)
    (hbegun : sel.segments = [] → ∀ s ∈ segments.head?, s.byteLength ≤ sel.remaining) :
    ∃ sel' more k, sel.pushAll segments = .ok (sel', more) ∧
      LongestRun segments sel.remaining k ∧ sel'.segments = sel.segments ++ segments.take k ∧
      sel'.oversizedFirstBatch = sel.oversizedFirstBatch := by
  -- over the segments, with what is left of the budget
  induction segments generalizing sel with
  | nil => exact ⟨sel, true, 0, rfl, longestRun_nil _, by simp, rfl⟩
  | cons s segments ih =>
    have hs := hvalid s (by simp)
    by_cases hfits : s.byteLength ≤ sel.remaining
    · have hpush := push_take hs (hend s (by simp)) hfits
      by_cases hfull : sel.remaining - s.byteLength = 0
      · -- the budget is hit exactly: no later segment fits, as none is empty
        have hzero : LongestRun segments (sel.remaining - s.byteLength) 0 := by
          rw [hfull]
          cases segments with
          | nil => exact longestRun_nil 0
          | cons t segments => exact longestRun_zero (hvalid t (by simp)).length_pos
        refine ⟨taken sel s, false, 1, ?_, hzero.cons hfits, by simp [taken], rfl⟩
        simp [Selection.pushAll, hpush, hfull, bind, Except.bind]
      · obtain ⟨sel', more, k, hrest, hrun, hsegments, hflag⟩ := ih (taken sel s)
          (fun t ht => hvalid t (by simp [ht])) (fun t ht => hend t (by simp [ht]))
          (fun hnil => by simp [taken] at hnil)
        refine ⟨sel', more, k + 1, ?_, hrun.cons hfits, ?_, hflag⟩
        · simpa [Selection.pushAll, hpush, hfull, bind, Except.bind] using hrest
        · rw [hsegments]
          simp [taken]
    -- the segment does not fit, and the selection ends before it
    · have hbegun : sel.segments ≠ [] := fun hnil => hfits (hbegun hnil s rfl)
      have hpush := push_full sel hs (hend s (by simp)) (by omega) (.inl hbegun)
      refine ⟨sel, false, 0, ?_, longestRun_zero (by omega), by simp, rfl⟩
      simp [Selection.pushAll, hpush, bind, Except.bind]

/-- A pass over segments from the wanted offset on selects what a fetch should. -/
private theorem pushAll_new {first : Segment} {rest : List Segment} (offset : Int) (budget : Nat)
    (allow : Bool) (hvalid : ∀ s ∈ first :: rest, self.ValidSegment s)
    (hend : ∀ s ∈ first :: rest, offset < s.endOffset) :
    ∃ sel more, (Selection.new offset budget allow).pushAll (first :: rest) = .ok (sel, more) ∧
      Selects (first :: rest) budget allow sel.segments sel.oversizedFirstBatch := by
  have hs := hvalid first (by simp)
  have hfirst := hend first (by simp)
  -- the first segment fits, and a run begins with it
  by_cases hfits : first.byteLength ≤ budget
  · obtain ⟨sel, more, k, hpush, hrun, hsegments, hflag⟩ :=
      pushAll_run (Selection.new offset budget allow) hvalid hend fun _ s hs' => by
        obtain rfl : first = s := by simpa using hs'
        exact hfits
    have hpos : 1 ≤ k := hrun.longest 1 (by simp) (by simpa [Selection.new] using hfits)
    refine ⟨sel, more, hpush, ?_⟩
    rw [hsegments, hflag]
    exact .run hrun hpos
  -- it does not, and is taken alone or not at all
  · have hlt : budget < first.byteLength := by omega
    cases allow with
    | true =>
      have hpush := push_oversized (Selection.new offset budget true) hs hfirst hlt rfl rfl
      refine ⟨⟨offset, budget, true, [first], true⟩, false, ?_, .oversized rfl hlt rfl⟩
      simp only [Selection.pushAll, hpush, bind, Except.bind]
      rfl
    | false =>
      have hpush := push_full (Selection.new offset budget false) hs hfirst hlt (.inr rfl)
      refine ⟨Selection.new offset budget false, false, ?_, .nothing rfl hlt rfl⟩
      simp only [Selection.pushAll, hpush, bind, Except.bind]
      rfl

/-- A pass over segments that lie end to end selects what a fetch should. -/
theorem pushAll_selects {segments : List Segment} {a b offset : Int} (budget : Nat) (allow : Bool)
    (hvalid : ∀ s ∈ segments, self.ValidSegment s) (htiles : SegmentTiles segments a b)
    (ha : a ≤ offset) (hb : offset < b) :
    ∃ sel more before rest,
      (Selection.new offset budget allow).pushAll segments = .ok (sel, more) ∧
      segments = before ++ rest ∧
      (∃ first, rest.head? = some first ∧ first.baseOffset ≤ offset ∧ offset < first.endOffset) ∧
      Selects rest budget allow sel.segments sel.oversizedFirstBatch := by
  obtain ⟨before, rest, rfl, hbefore, hrest⟩ := htiles.filter_sublist offset
  obtain ⟨c, hfront, hback⟩ := tiles_append.mp htiles
  -- what is passed over ends before the offset
  have hc : c ≤ offset := by
    rcases List.eq_nil_or_concat before with rfl | ⟨ss, s, rfl⟩
    · exact (tiles_nil.mp hfront).symm.le.trans ha
    · rw [List.concat_eq_append] at hfront hbefore
      rw [← hfront.getLast]
      exact hbefore s (by simp)
  -- the offset lies below the end, so that a segment reaches beyond it
  cases rest with
  | nil =>
    have := tiles_nil.mp hback
    omega
  | cons s rest =>
    obtain ⟨sel, more, hpush, hselects⟩ := pushAll_new offset budget allow
      (fun t ht => hvalid t (by simp only [List.mem_append, ht, or_true])) hrest
    have hskip : (Selection.new offset budget allow).pushAll before =
        .ok (Selection.new offset budget allow, true) :=
      pushAll_skip (fun t ht => hvalid t (by simp [ht])) hbefore
    refine ⟨sel, more, before, s :: rest, ?_, rfl,
      ⟨s, rfl, hback.head.le.trans hc, hrest s (by simp)⟩, hselects⟩
    rw [pushAll_append, hskip]
    exact hpush

/-- **Indexed fetch refines the flat log.** In a store that holds the whole tree of a valid
root, `indexed_segments` selects what a pass over the tree's segments and the tail selects,
which is what the path for legacy manifests does with the same segments: from the segment
with the wanted offset on, the longest run that fits the budget, or the exception. -/
theorem indexed_fetch_refines_flat_log (log : PartitionLog) (content : String → Option Body)
    (root : Root) (objects : List String) (segments : List Segment) (offset : Int)
    (budget : Nat) (allow : Bool) (hroot : log.validateRoot root = .ok ())
    (htree : Walk (log.Answered content) root.tree.toList objects segments)
    (hstart : root.startOffset ≤ offset) (hnext : offset < root.nextOffset) :
    ∃ sel more before rest,
      (Selection.new offset budget allow).pushAll (segments ++ root.tail) = .ok (sel, more) ∧
      log.evaluate content (log.indexedSegments root (Selection.new offset budget allow)) =
        .ok sel ∧
      (∀ m : Manifest, m.segments = segments ++ root.tail →
        log.evaluate content (log.selectSegments (.legacy m) (Selection.new offset budget allow)) =
          .ok sel) ∧
      segments ++ root.tail = before ++ rest ∧
      (∃ first, rest.head? = some first ∧ first.baseOffset ≤ offset ∧ offset < first.endOffset) ∧
      Selects rest budget allow sel.segments sel.oversizedFirstBatch := by
  have hvalid := validateRoot_eq_ok.mp hroot
  have hcheck : ∀ r p, log.Answered content r p → log.checkPage r p = .ok () := fun r p h => h.1
  have htiles := (htree.tiles hcheck hvalid.tree_tiles).append hvalid.tail
  have hsegments : ∀ s ∈ segments ++ root.tail, log.ValidSegment s := by
    intro s hs
    rcases List.mem_append.mp hs with hs | hs
    · exact htree.valid hcheck s hs
    · exact hvalid.tail_valid s hs
  obtain ⟨sel, more, before, rest, hpush, hsplit, hfirst, hselects⟩ :=
    pushAll_selects budget allow hsegments htiles hstart hnext
  refine ⟨sel, more, before, rest, hpush, ?_, fun m hm => ?_, hsplit, hfirst, hselects⟩
  -- the walk through the index is a pass over the segments
  · obtain ⟨sel', heval, more', hpush'⟩ :=
      (evaluate_reader log content).indexedSegments htree hvalid.tail_valid
    rw [hpush] at hpush'
    cases hpush'
    exact heval
  -- so is the selection from a legacy manifest
  · simp only [selectSegments, evaluate_bind, evaluate_check, hm, hpush]
    rfl

open Reference

/-- What the walk of an index with a tree selects, and at which offsets. -/
def TreeSelects (offset : Int) (budget : Nat) (allow : Bool) (offsets : List Int) : Prop :=
  ∃ sel more before rest,
    (Selection.new offset budget allow).pushAll
      (segmentsFrom 0 ++ segmentsFrom 64 ++ treeRoot.tail) = .ok (sel, more) ∧
    log.evaluate indexPages (log.indexedSegments treeRoot (Selection.new offset budget allow)) =
      .ok sel ∧
    (∀ m : Manifest, m.segments = segmentsFrom 0 ++ segmentsFrom 64 ++ treeRoot.tail →
      log.evaluate indexPages
        (log.selectSegments (.legacy m) (Selection.new offset budget allow)) = .ok sel) ∧
    segmentsFrom 0 ++ segmentsFrom 64 ++ treeRoot.tail = before ++ rest ∧
    (∃ first, rest.head? = some first ∧ first.baseOffset ≤ offset ∧ offset < first.endOffset) ∧
    Selects rest budget allow sel.segments sel.oversizedFirstBatch ∧
    sel.segments.map (·.baseOffset) = offsets

/-- From the first leaf into the second one, with bytes to spare; and from the second leaf into
the tail, with a budget that is used up. -/
theorem indexed_fetch_refines_flat_log_reference :
    TreeSelects 50 1400 false ((List.range' 50 20).map (↑)) ∧
      TreeSelects 70 4071 false ((List.range' 70 59).map (↑)) := by
  have hoffsets : ∀ {offset : Int} {budget : Nat} {offsets : List Int} {sel : Selection}
      {more : Bool}, (Selection.new offset budget false).pushAll
        (segmentsFrom 0 ++ segmentsFrom 64 ++ treeRoot.tail) = .ok (sel, more) →
      ((Selection.new offset budget false).pushAll (segmentsFrom 0 ++ segmentsFrom 64 ++
        treeRoot.tail)).toOption.map (·.1.segments.map (·.baseOffset)) = some offsets →
      sel.segments.map (·.baseOffset) = offsets := by
    intro offset budget offsets sel more hpush h
    rw [hpush] at h
    exact Option.some.inj h
  constructor
  · obtain ⟨sel, more, before, rest, hpush, hwalk, hflat, hsplit, hfirst, hselects⟩ :=
      indexed_fetch_refines_flat_log log indexPages treeRoot _ _ 50 1400 false treeRoot_valid
        tree_answered (by decide) (by decide)
    exact ⟨sel, more, before, rest, hpush, hwalk, hflat, hsplit, hfirst, hselects,
      hoffsets hpush (by decide +kernel)⟩
  · obtain ⟨sel, more, before, rest, hpush, hwalk, hflat, hsplit, hfirst, hselects⟩ :=
      indexed_fetch_refines_flat_log log indexPages treeRoot _ _ 70 4071 false treeRoot_valid
        tree_answered (by decide) (by decide)
    exact ⟨sel, more, before, rest, hpush, hwalk, hflat, hsplit, hfirst, hselects,
      hoffsets hpush (by decide +kernel)⟩

end PartitionLog

end Walstream.Log

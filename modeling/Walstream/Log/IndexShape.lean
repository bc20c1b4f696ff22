import Walstream.Log.Index
import Walstream.Order.Tiling

/-!
# What the checks of the index say

The reader and the writer of the log run long conjunctions of checks. Each of them is
characterised here once, in terms of tilings of the offset range, so that later proofs
speak of ranges and shapes and not of loops.
-/

namespace Walstream.Log

open Interaction Tiling

/-! ## Segments -/

/-- The offset after the segment's last record. -/
def Segment.endOffset (s : Segment) : Int := s.baseOffset + s.recordCount

/-- The segments lie end to end from `a` to `b`. -/
abbrev SegmentTiles : List Segment → Int → Int → Prop := Tiles Segment.baseOffset Segment.endOffset

/-- The references lie end to end from `a` to `b`. -/
abbrev RefTiles : List PageRef → Int → Int → Prop := Tiles PageRef.firstOffset PageRef.nextOffset

/-- The offset at which a root's tail begins. -/
def Root.treeEnd (root : Root) : Int :=
  root.tree.elim root.startOffset PageRef.nextOffset

/-- The segments in a root's tree. -/
def Root.treeCount (root : Root) : Nat :=
  root.tree.elim 0 PageRef.segmentCount

namespace PartitionLog

/-- A segment that passes the checks of `validate_segments` on one segment. -/
structure ValidSegment (log : PartitionLog) (s : Segment) : Prop where
  count_pos : 0 < s.recordCount
  count_le : s.recordCount ≤ maxBatchRecords
  length_pos : 0 < s.byteLength
  length_le : s.byteLength ≤ maxBatchBytes
  starts : startsWith s.object (segmentsNamespace log.keyPrefix log.topic log.partition)
  ends : endsWith s.object ".batch"
  checksum : validChecksum s.sha256 = true
  last_ge : i64Min ≤ s.baseOffset + (s.recordCount - 1)
  end_le : s.endOffset ≤ i64Max

variable {self : PartitionLog}

theorem ValidSegment.lastOffset {s : Segment} (h : self.ValidSegment s) :
    s.lastOffset = .ok (s.endOffset - 1) := by
  have hcount := h.count_pos
  have hge := h.last_ge
  have hle := h.end_le
  unfold Segment.endOffset at *
  simp only [Segment.lastOffset, okOr_eq_ok, checkedAddI64_eq_some]
  omega

private theorem validateSegmentsFrom_eq_ok {segments : List Segment} {a b : Int}
    {objects : List String} :
    self.validateSegmentsFrom segments a objects = .ok b ↔
      SegmentTiles segments a b ∧ (∀ s ∈ segments, self.ValidSegment s) ∧
        (segments.map (·.object)).Nodup ∧ ∀ s ∈ segments, s.object ∉ objects := by
  -- over the segments, with the names that have been seen
  induction segments generalizing a objects with
  | nil => simp [validateSegmentsFrom]
  | cons s segments ih =>
    simp only [validateSegmentsFrom, bind_eq_ok, rejectIf_eq_ok, okOr_eq_ok, ih, tiles_cons,
      List.forall_mem_cons, List.map_cons, List.nodup_cons, List.mem_map, Segment.lastOffset,
      checkedAddI64_eq_some]
    constructor
    · rintro ⟨_, hbase, _, hempty, _, hlarge, _, hname, _, hsum, last, ⟨hlast, rfl⟩, next,
        ⟨hnext, rfl⟩, htiles, hvalid, hnodup, hfresh⟩
      push Not at hbase hempty hlarge hname hsum
      -- the last offset is one before the end
      have hend : s.baseOffset + ((s.recordCount : Int) - 1) + 1 = s.endOffset := by
        unfold Segment.endOffset; omega
      rw [hend] at htiles hnext
      refine ⟨⟨hbase, ?_, htiles⟩, ⟨⟨by omega, hlarge.1, by omega, hlarge.2, hname.1, hname.2.1,
        by simpa using hsum, hlast.1, hnext.2⟩, hvalid⟩, ⟨?_, hnodup⟩, hname.2.2, ?_⟩
      · unfold Segment.endOffset; omega
      · rintro ⟨t, ht, heq⟩
        exact hfresh t ht (heq ▸ List.mem_cons_self)
      · exact fun t ht hmem => hfresh t ht (List.mem_cons_of_mem _ hmem)
    -- the other way round no check fails
    · rintro ⟨⟨hbase, _, htiles⟩, ⟨hv, hvalid⟩, ⟨hnot, hnodup⟩, hmem, hfresh⟩
      obtain ⟨h₁, h₂, h₃, h₄, h₅, h₆, h₇, h₈, h₉⟩ := hv
      have hend : s.baseOffset + ((s.recordCount : Int) - 1) + 1 = s.endOffset := by
        unfold Segment.endOffset; omega
      have hlt : s.baseOffset + ((s.recordCount : Int) - 1) + 1 ≤ i64Max := hend ▸ h₉
      refine ⟨(), not_not.mpr hbase, (), by omega, (), by omega, (), ?_, (), by simp [h₇],
        _, ⟨⟨h₈, by omega⟩, rfl⟩, _, ⟨⟨by omega, hlt⟩, rfl⟩, ?_, hvalid, hnodup, ?_⟩
      · simp [h₅, h₆, hmem]
      · rw [hend]; exact htiles
      · intro t ht hc
        rcases List.mem_cons.mp hc with heq | hc
        · exact hnot ⟨t, ht, heq⟩
        · exact hfresh t ht hc

/-- `validate_segments` accepts segments that tile the range, each of them valid, under
different names. -/
theorem validateSegments_eq_ok {segments : List Segment} {a b : Int} :
    self.validateSegments segments a = .ok b ↔ SegmentTiles segments a b ∧
      (∀ s ∈ segments, self.ValidSegment s) ∧ (segments.map (·.object)).Nodup := by
  simp [validateSegments, validateSegmentsFrom_eq_ok]

/-! ## References and pages -/

/-- The most entries below a page of this level. -/
def levelCapacity (level : Nat) : Nat := (checkedPowU64 pageEntries (level + 1)).getD u64Max

theorem capacity_eq (r : PageRef) : r.capacity = levelCapacity r.level := rfl

/-- Segments under the references. -/
def countBelow (children : List PageRef) : Nat := (children.map (·.segmentCount)).sum

@[simp] theorem countBelow_cons (c : PageRef) (cs : List PageRef) :
    countBelow (c :: cs) = c.segmentCount + countBelow cs := by simp [countBelow]

@[simp] theorem countBelow_nil : countBelow [] = 0 := rfl

theorem countBelow_append (cs ds : List PageRef) :
    countBelow (cs ++ ds) = countBelow cs + countBelow ds := by simp [countBelow]

theorem validatePageRef_eq_ok {r : PageRef} {u : Unit} :
    self.validatePageRef r = .ok u ↔
      self.crates.namesUuid (indexNamespace self.keyPrefix self.topic self.partition) ".json"
          r.object = true ∧
        r.level ≤ maxIndexLevel ∧ 0 ≤ r.firstOffset ∧ r.firstOffset < r.nextOffset ∧
        0 < r.segmentCount ∧ (r.segmentCount : Int) ≤ r.nextOffset - r.firstOffset ∧
        r.segmentCount ≤ r.capacity ∧ 0 < r.byteLength ∧ r.byteLength ≤ maxManifestBytes ∧
        validChecksum r.sha256 = true := by
  simp only [validatePageRef, rejectIf_eq_ok, not_or, Bool.not_eq_false, not_lt, not_le, gt_iff_lt,
    Nat.pos_iff_ne_zero]

/-- References to pages of one level that lie end to end and are all full, the last one
perhaps excepted: what `validate_children` accepts. -/
structure Row (log : PartitionLog) (level : Nat) (children : List PageRef) (a b : Int) :
    Prop where
  tiles : RefTiles children a b
  valid : ∀ c ∈ children, log.validatePageRef c = .ok ()
  level_eq : ∀ c ∈ children, c.level = level
  full : ∀ c ∈ children.dropLast, c.full = true
  nodup : (children.map (·.object)).Nodup

private theorem validateChildrenFrom_eq_ok {level : Nat} {children : List PageRef} {a b : Int}
    {count total : Nat} {objects : List String} (hcount : count ≤ u64Max) :
    self.validateChildrenFrom level children a count objects = .ok (b, total) ↔
      Row self level children a b ∧ (∀ c ∈ children, c.object ∉ objects) ∧
        count + countBelow children = total ∧ total ≤ u64Max := by
  -- over the children, with the names that have been seen and the sum so far
  induction children generalizing a count objects with
  | nil =>
    simp only [validateChildrenFrom, Except.ok.injEq, Prod.mk.injEq, countBelow_nil]
    constructor
    · rintro ⟨rfl, rfl⟩
      exact ⟨⟨rfl, by simp, by simp, by simp, by simp⟩, by simp, rfl, hcount⟩
    · rintro ⟨h, -, rfl, -⟩
      exact ⟨h.tiles, rfl⟩
  | cons c cs ih =>
    simp only [validateChildrenFrom, bind_eq_ok, rejectIf_eq_ok, okOr_eq_ok,
      checkedAddU64_eq_some, List.forall_mem_cons, countBelow_cons]
    constructor
    · rintro ⟨_, hvalid, _, hshape, sum, ⟨hsum, rfl⟩, hrest⟩
      obtain ⟨hrow, hfresh, htotal, hle⟩ := (ih hsum).mp hrest
      push Not at hshape
      obtain ⟨hfirst, hlevel, hobject, hfull⟩ := hshape
      refine ⟨⟨⟨hfirst, ?_, hrow.tiles⟩, ?_, ?_, ?_, ?_⟩, ⟨hobject, ?_⟩, by omega, hle⟩
      · have := (validatePageRef_eq_ok.mp hvalid).2.2.2.1
        omega
      · simpa [hvalid] using hrow.valid
      · simpa [hlevel] using hrow.level_eq
      -- only the last child may have room
      · cases cs with
        | nil => simp
        | cons d ds =>
          simpa using ⟨by simpa using hfull (by simp), hrow.full⟩
      · refine List.nodup_cons.mpr ⟨?_, hrow.nodup⟩
        rintro hmem
        obtain ⟨d, hd, heq⟩ := List.mem_map.mp hmem
        exact hfresh d hd (heq ▸ List.mem_cons_self)
      · exact fun d hd hmem => hfresh d hd (List.mem_cons_of_mem _ hmem)
    -- the other way round no check fails, and no sum overflows
    · rintro ⟨hrow, ⟨hobject, hfresh⟩, htotal, hle⟩
      obtain ⟨hfirst, hlt, htiles⟩ := hrow.tiles
      have hnodup := List.nodup_cons.mp hrow.nodup
      refine ⟨(), hrow.valid c (by simp), (), ?_, _, ⟨by omega, rfl⟩, ?_⟩
      · push Not
        refine ⟨hfirst, hrow.level_eq c (by simp), hobject, fun hne => ?_⟩
        obtain ⟨d, ds, rfl⟩ := List.exists_cons_of_ne_nil hne
        simpa using hrow.full c (by simp)
      · refine (ih (by omega)).mpr ⟨⟨htiles, fun d hd => hrow.valid d (by simp [hd]),
          fun d hd => hrow.level_eq d (by simp [hd]), fun d hd => hrow.full d ?_, hnodup.2⟩,
          fun d hd hmem => ?_, by omega, hle⟩
        · cases cs with
          | nil => simp at hd
          | cons e es => simpa using Or.inr hd
        · rcases List.mem_cons.mp hmem with heq | hmem
          · exact hnodup.1 (List.mem_map.mpr ⟨d, hd, heq⟩)
          · exact hfresh d hd hmem

/-- `validate_children` accepts a row of at most 64 references below the top level. -/
theorem validateChildren_eq_ok {children : List PageRef} {first next : Int}
    {count level : Nat} :
    self.validateChildren children = .ok (first, next, count, level) ↔
      children ≠ [] ∧ children.length ≤ pageEntries ∧ countBelow children = count ∧
        count ≤ u64Max ∧ 0 < level ∧ level ≤ maxIndexLevel ∧
        Row self (level - 1) children first next := by
  cases children with
  | nil => simp [validateChildren]
  | cons c cs =>
    simp only [validateChildren, bind_eq_ok, rejectIf_eq_ok, pure, Except.pure, Except.ok.injEq,
      Prod.exists, Prod.mk.injEq]
    constructor
    · rintro ⟨_, hlimit, next', total, hrest, rfl, rfl, rfl, rfl⟩
      push Not at hlimit
      obtain ⟨hrow, -, htotal, hle⟩ := (validateChildrenFrom_eq_ok (Nat.zero_le _)).mp hrest
      exact ⟨by simp, hlimit.1, by omega, hle, by omega, by omega, by simpa using hrow⟩
    · rintro ⟨-, hlen, hcount, hle, hpos, hmax, hrow⟩
      have hfirst := hrow.tiles.head
      have hlevel := hrow.level_eq c (by simp)
      refine ⟨(), by push Not; exact ⟨hlen, by omega⟩, next, count,
        (validateChildrenFrom_eq_ok (Nat.zero_le _)).mpr ⟨?_, by simp, by omega, hle⟩,
        hfirst, rfl, rfl, by omega⟩
      rw [hlevel, hfirst]
      exact hrow

theorem checkPage_eq_ok {r : PageRef} {page : Page} {u : Unit} :
    self.checkPage r page = .ok u ↔ self.readPageBounds r page = .ok r.bounds := by
  simp only [checkPage, bind_eq_ok, rejectIf_eq_ok, not_not, exists_eq_right]

/-- A leaf matches its reference when it is full and its segments tile the reference's
range. -/
theorem checkPage_leaf {r : PageRef} {segments : List Segment} {u : Unit} :
    self.checkPage r (.leaf segments) = .ok u ↔
      segments.length = pageEntries ∧ r.segmentCount = pageEntries ∧ r.level = 0 ∧
        SegmentTiles segments r.firstOffset r.nextOffset ∧
        (∀ s ∈ segments, self.ValidSegment s) ∧ (segments.map (·.object)).Nodup := by
  simp only [checkPage_eq_ok, readPageBounds, bind_eq_ok, rejectIf_eq_ok, pure, Except.pure,
    Except.ok.injEq, validateSegments_eq_ok, PageRef.bounds, not_not, Prod.mk.injEq]
  constructor
  · rintro ⟨_, hlen, next, ⟨htiles, hvalid, hnodup⟩, -, rfl, hcount, hlevel⟩
    exact ⟨hlen, by omega, hlevel.symm, htiles, hvalid, hnodup⟩
  · rintro ⟨hlen, hcount, hlevel, htiles, hvalid, hnodup⟩
    exact ⟨(), hlen, _, ⟨htiles, hvalid, hnodup⟩, trivial, rfl, by omega, hlevel.symm⟩

/-- A branch matches its reference when its children are a row over the reference's range
with the reference's count. -/
theorem checkPage_branch_eq_ok {r : PageRef} {children : List PageRef} {u : Unit} :
    self.checkPage r (.branch children) = .ok u ↔
      children ≠ [] ∧ children.length ≤ pageEntries ∧ countBelow children = r.segmentCount ∧
        r.segmentCount ≤ u64Max ∧ 0 < r.level ∧ r.level ≤ maxIndexLevel ∧
        Row self (r.level - 1) children r.firstOffset r.nextOffset := by
  rw [checkPage_eq_ok]
  exact validateChildren_eq_ok

/-! ## Roots -/

/-- The conjunction that `Root::validate` checks. -/
structure ValidRoot (log : PartitionLog) (root : Root) : Prop where
  schema : root.schema = 2 ∨ root.schema = 3 ∨ root.schema = indexSchema
  tail_le : root.tail.length ≤ pageEntries
  start_nonneg : 0 ≤ root.startOffset
  adopted : root.schema = 2 ∨ root.adoptedAtMs ≠ none
  directory : root.schema = indexSchema ∨ root.producers = none
  schema_two : root.schema = 2 → root.startOffset = 0 ∧ root.adoptedAtMs = none ∧
    (∀ s ∈ root.tail, s.receivedAtMs = none) ∧ root.treeCount + root.tail.length = root.revision
  producers : ∀ r ∈ root.producers, log.validateProducerRef r = .ok ()
  tree : ∀ r ∈ root.tree, log.validatePageRef r = .ok () ∧ r.firstOffset = root.startOffset
  tail : SegmentTiles root.tail root.treeEnd root.nextOffset
  tail_valid : ∀ s ∈ root.tail, log.ValidSegment s
  tail_nodup : (root.tail.map (·.object)).Nodup
  count_le : root.treeCount + root.tail.length ≤ u64Max
  count_revision : root.treeCount + root.tail.length ≤ root.revision
  tail_nonempty : root.tail = [] → root.tree = none

theorem ValidRoot.treeEnd_ge {root : Root} (h : self.ValidRoot root) :
    root.startOffset ≤ root.treeEnd := by
  unfold Root.treeEnd
  rcases htree : root.tree with _ | r
  · simp
  · obtain ⟨hvalid, hfirst⟩ := h.tree r htree
    have := (validatePageRef_eq_ok.mp hvalid).2.2.2.1
    simp only [Option.elim_some]
    omega

theorem ValidRoot.start_le {root : Root} (h : self.ValidRoot root) :
    root.startOffset ≤ root.nextOffset := h.treeEnd_ge.trans h.tail.le

/-- The references of a valid root's stack tile the range before the tail. -/
theorem ValidRoot.tree_tiles {root : Root} (h : self.ValidRoot root) :
    RefTiles root.tree.toList root.startOffset root.treeEnd := by
  unfold Root.treeEnd
  rcases htree : root.tree with _ | r
  · rfl
  · obtain ⟨hvalid, hfirst⟩ := h.tree r htree
    have hlt := (validatePageRef_eq_ok.mp hvalid).2.2.2.1
    exact ⟨hfirst, by omega, rfl⟩

theorem validateRootTree_eq_ok {root : Root} {a : Int} {n : Nat} :
    self.validateRootTree root = .ok (a, n) ↔
      (∀ r ∈ root.tree, self.validatePageRef r = .ok () ∧ r.firstOffset = root.startOffset) ∧
        root.treeEnd = a ∧ root.treeCount = n := by
  unfold validateRootTree Root.treeEnd Root.treeCount
  rcases root.tree with _ | tree
  · simp
  · simp only [bind_eq_ok, rejectIf_eq_ok, not_not, pure, Except.pure, Except.ok.injEq,
      Prod.mk.injEq, Option.mem_def, Option.some.injEq, forall_eq', Option.elim_some]
    constructor
    · rintro ⟨⟨⟩, hvalid, ⟨⟩, hfirst, hbounds⟩
      exact ⟨⟨hvalid, hfirst⟩, hbounds⟩
    · rintro ⟨⟨hvalid, hfirst⟩, hbounds⟩
      exact ⟨(), hvalid, (), hfirst, hbounds⟩

theorem validateRootProducers_eq_ok {root : Root} {u : Unit} :
    self.validateRootProducers root = .ok u ↔
      ∀ r ∈ root.producers, self.validateProducerRef r = .ok () := by
  unfold validateRootProducers
  rcases root.producers with _ | r <;> simp

/-- `Root::validate` accepts exactly the valid roots. -/
theorem validateRoot_eq_ok {root : Root} {u : Unit} :
    self.validateRoot root = .ok u ↔ self.ValidRoot root := by
  -- the checks of the root, those of its tree and those of its tail
  simp only [validateRoot, bind_eq_ok, rejectIf_eq_ok, validateRootProducers_eq_ok, Prod.exists,
    validateRootTree_eq_ok, validateSegments_eq_ok]
  constructor
  · rintro ⟨_, hroot, _, hdir, _, _, ⟨htree, rfl, rfl⟩, next, ⟨htiles, hvalid, hnodup⟩, hrange⟩
    simp only [not_or, not_and, not_lt, gt_iff_lt, not_not, ge_iff_le, not_exists] at hroot hrange
    obtain ⟨hschema, hlen, hstart, -, hadopted, hold, htwo⟩ := hroot
    obtain ⟨rfl, hcount, hrevision, hrevtwo, hempty⟩ := hrange
    -- the three schemas that are known
    have hcases : root.schema = 2 ∨ root.schema = 3 ∨ root.schema = indexSchema := by
      by_contra hne
      push Not at hne
      exact hne.2.2 (hschema hne.1 hne.2.1)
    refine ⟨hcases, hlen, hstart, ?_, ?_, ?_, hdir, htree, htiles, hvalid, hnodup, hcount,
      hrevision, hempty⟩
    · rcases hcases with h | h | h
      · exact .inl h
      · exact .inr (hadopted (by omega))
      · exact .inr (hadopted (by rw [h]; decide))
    · rcases hcases with h | h | h
      · exact .inr (hold (by omega))
      · exact .inr (hold (by omega))
      · exact .inl h
    · intro h
      obtain ⟨h₁, h₂, h₃⟩ := htwo h
      exact ⟨h₁, h₂, fun s hs => h₃ s hs, hrevtwo h⟩
  -- the other way round, schema by schema
  · intro h
    refine ⟨(), ?_, (), h.producers, _, _, ⟨h.tree, rfl, rfl⟩, root.nextOffset,
      ⟨h.tail, h.tail_valid, h.tail_nodup⟩, ?_⟩
    · simp only [not_or, not_and, not_lt, gt_iff_lt, not_not, ge_iff_le, not_exists]
      refine ⟨fun h₂ h₃ => (h.schema.resolve_left h₂).resolve_left h₃, h.tail_le, h.start_nonneg,
        h.start_le, fun h₃ => h.adopted.resolve_left (by omega), fun h₄ => ?_, fun h₂ => ?_⟩
      · exact h.directory.resolve_left fun heq => by rw [heq] at h₄; exact absurd h₄ (by decide)
      · obtain ⟨h₁, h₃, h₄, -⟩ := h.schema_two h₂
        exact ⟨h₁, h₃, fun s hs => h₄ s hs⟩
    · simp only [not_or, not_and, not_lt, gt_iff_lt, not_not]
      exact ⟨trivial, h.count_le, h.count_revision, fun h₂ => (h.schema_two h₂).2.2.2,
        h.tail_nonempty⟩

end PartitionLog

end Walstream.Log

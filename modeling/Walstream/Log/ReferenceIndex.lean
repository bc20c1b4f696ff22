import Walstream.Log.Appending
import Walstream.Log.Reference

/-!
# An index with a tree

A log of 130 batches of one record each: a branch over two leaves, and two segments in the
tail of the root. Its pages have the lengths and the digests that their references promise.
-/

namespace Walstream.Log.Reference

open Interaction PartitionLog

/-! ## Segments -/

/-- The batch at this offset. -/
def batchAt (offset : Nat) : Body := .raw (toBeBytes offset ++ plainTail)

/-- A segment of one record at this offset. -/
def segmentAt (offset : Nat) : Segment :=
  { segment with
    object := log.segmentPath (BitVec.ofNat 128 offset)
    baseOffset := offset
    sha256 := sha256Hex (batchAt offset) }

/-- The segments of one leaf, from this offset on. -/
def segmentsFrom (base : Nat) : List Segment := (List.range' base pageEntries).map segmentAt

theorem segmentAt_valid {offset : Nat} (h : offset < 1000) :
    log.ValidSegment (segmentAt offset) where
  count_pos := Nat.one_pos
  count_le := show 1 ≤ maxBatchRecords by decide
  length_pos := show 0 < 69 by decide
  length_le := show 69 ≤ maxBatchBytes by decide
  starts := log.segmentPath_starts _
  ends := log.segmentPath_ends _
  checksum := sha256Hex_valid _
  last_ge := by simp only [segmentAt, segment, i64Min]; omega
  end_le := by simp only [Segment.endOffset, segmentAt, segment, i64Max]; omega

theorem segmentAt_tiles (base count : Nat) :
    SegmentTiles ((List.range' base count).map segmentAt) base (base + count : Nat) := by
  induction count generalizing base with
  | zero => simp
  | succ count ih =>
    have hend : (segmentAt base).endOffset = (base + 1 : Nat) := by
      simp [segmentAt, segment, Segment.endOffset]
    rw [List.range'_succ, List.map_cons]
    refine ⟨rfl, by rw [hend]; omega, ?_⟩
    rw [hend, show base + (count + 1) = base + 1 + count by omega]
    exact ih (base + 1)

theorem segmentAt_object (offset : Nat) :
    (segmentAt offset).object = log.segmentPath (BitVec.ofNat 128 offset) := rfl

theorem segmentAt_injective {i j : Nat} (hi : i < 1000) (hj : j < 1000)
    (h : (segmentAt i).object = (segmentAt j).object) : i = j := by
  rw [segmentAt_object, segmentAt_object] at h
  have hmem := log.segmentPath_mem (BitVec.ofNat 128 i)
  rw [h] at hmem
  have hid := congrArg BitVec.toNat (log.names_disjoint hmem (log.segmentPath_mem _))
  simp only [BitVec.toNat_ofNat] at hid
  omega

theorem segmentAt_nodup {base count : Nat} (h : base + count ≤ 1000) :
    (((List.range' base count).map segmentAt).map (·.object)).Nodup := by
  have hbound : ∀ i ∈ List.range' base count, i < 1000 := by
    intro i hi
    rw [List.mem_range'_1] at hi
    omega
  rw [List.map_map]
  refine List.Nodup.map_on (fun i hi j hj heq => ?_) List.nodup_range'
  exact segmentAt_injective (hbound i hi) (hbound j hj) heq

theorem segmentsFrom_valid {base : Nat} (h : base < 900) :
    ∀ s ∈ segmentsFrom base, log.ValidSegment s ∧ ∃ id, s.object = log.segmentPath id := by
  intro s hs
  obtain ⟨i, hi, rfl⟩ := List.mem_map.mp hs
  simp only [List.mem_range'_1, pageEntries] at hi
  exact ⟨segmentAt_valid (by omega), _, rfl⟩

/-! ## Pages -/

/-- The reference to a page that stands under the name of this UUID. -/
def refTo (id : Uuid) (page : Page) (bounds : PageBounds) : PageRef where
  object := log.indexPath id
  firstOffset := bounds.1
  nextOffset := bounds.2.1
  segmentCount := bounds.2.2.1
  level := bounds.2.2.2
  byteLength := crates.size (.page page)
  sha256 := crates.sha256Hex (.page page)

/-- The reference to the leaf of these segments. -/
def leafOf (id : Uuid) (base : Nat) : PageRef :=
  refTo id (.leaf (segmentsFrom base)) (base, base + pageEntries, pageEntries, 0)

theorem leafOf_checked (id : Uuid) {base : Nat} (h : base < 900) :
    log.checkPage (leafOf id base) (.leaf (segmentsFrom base)) = .ok () := by
  refine checkPage_leaf.mpr ⟨by simp [segmentsFrom], rfl, rfl, segmentAt_tiles base _,
    fun s hs => (segmentsFrom_valid h s hs).1, segmentAt_nodup ?_⟩
  simp only [pageEntries]
  omega

theorem leafOf_valid (id : Uuid) {base : Nat} (h : base < 900) :
    log.validatePageRef (leafOf id base) = .ok () := by
  refine validatePageRef_eq_ok.mpr ⟨log.crates.namesUuid_self _ _ id, Nat.zero_le _, ?_, ?_, ?_, ?_,
    show pageEntries ≤ levelCapacity 0 by decide, crates.jsonLength_pos _,
    fits.leaf _ (by simp [segmentsFrom]) (segmentsFrom_valid h), sha256Hex_valid _⟩
  all_goals simp [leafOf, refTo, pageEntries]

/-- The branch over the first two leaves. -/
def branchPage : Page := .branch [leafOf 0 0, leafOf 1 64]

/-- The reference to the branch. -/
def branch : PageRef := refTo 2 branchPage (0, 128, 128, 1)

theorem indexPath_injective {id id' : Uuid} (h : log.indexPath id = log.indexPath id') :
    id = id' := log.names_disjoint (h ▸ log.indexPath_mem id) (log.indexPath_mem id')

theorem leaves_valid : ∀ c ∈ [leafOf 0 0, leafOf 1 64], log.validatePageRef c = .ok () := by
  simp [leafOf_valid]

theorem leaves_row : log.Row 0 [leafOf 0 0, leafOf 1 64] 0 128 where
  tiles := by simp [leafOf, refTo, pageEntries]
  valid := leaves_valid
  level_eq := by simp [leafOf, refTo]
  full := by
    have hfull : (leafOf 0 0).full = true := full_iff.mpr rfl
    simpa using hfull
  nodup := by
    have hne : (leafOf 0 0).object ≠ (leafOf 1 64).object := fun h =>
      absurd (indexPath_injective h) (by decide)
    simpa using hne

theorem branch_valid : log.validatePageRef branch = .ok () :=
  validatePageRef_eq_ok.mpr ⟨log.crates.namesUuid_self _ _ 2, by decide, by decide, by decide,
    by decide, by decide, show 128 ≤ levelCapacity 1 by decide, crates.jsonLength_pos _,
    fits.branch _ (by decide) leaves_valid, sha256Hex_valid _⟩

theorem branch_checked : log.checkPage branch branchPage = .ok () :=
  checkPage_branch_eq_ok.mpr ⟨by simp, by decide, rfl, by decide, by decide, by decide, leaves_row⟩

/-! ## The root -/

/-- The root over the branch, with two segments in its tail. -/
def treeRoot : Root :=
  { Root.empty with
    revision := 130
    nextOffset := 130
    tree := some branch
    tail := [segmentAt 128, segmentAt 129] }

theorem treeRoot_valid : log.validateRoot treeRoot = .ok () := by
  refine validateRoot_eq_ok.mpr ⟨.inr (.inr rfl), by decide, by decide, .inr (by decide), .inl rfl,
    fun h => absurd h (by decide), by simp [treeRoot, Root.empty], ?_, segmentAt_tiles 128 2, ?_,
    segmentAt_nodup (show 128 + 2 ≤ 1000 by decide), by decide, by decide, by simp [treeRoot]⟩
  · intro r hr
    obtain rfl : branch = r := by simpa [treeRoot] using hr
    exact ⟨branch_valid, rfl⟩
  · intro s hs
    have hs : s = segmentAt 128 ∨ s = segmentAt 129 := by simpa [treeRoot] using hs
    rcases hs with rfl | rfl <;> exact segmentAt_valid (by decide)

/-! ## The pages in a store -/

/-- The pages of the two leaves. -/
def leafPages : String → Option Body :=
  Function.update (Function.update (fun _ => none)
    (log.indexPath 0) (some (.page (.leaf (segmentsFrom 0)))))
    (log.indexPath 1) (some (.page (.leaf (segmentsFrom 64))))

/-- The pages of the branch and its leaves. -/
def indexPages : String → Option Body :=
  Function.update leafPages (log.indexPath 2) (some (.page branchPage))

private theorem indexPath_ne {id id' : Uuid} (h : id ≠ id') :
    log.indexPath id ≠ log.indexPath id' := fun heq => h (indexPath_injective heq)

theorem leafPages_other {path : String} (h₀ : path ≠ log.indexPath 0) (h₁ : path ≠ log.indexPath 1) :
    leafPages path = none := by
  unfold leafPages
  rw [Function.update_of_ne h₁, Function.update_of_ne h₀]

theorem leafPages_zero : leafPages (log.indexPath 0) = some (.page (.leaf (segmentsFrom 0))) := by
  unfold leafPages
  rw [Function.update_of_ne (indexPath_ne (by decide)), Function.update_self]

theorem leafPages_one : leafPages (log.indexPath 1) = some (.page (.leaf (segmentsFrom 64))) := by
  unfold leafPages
  rw [Function.update_self]

theorem leaf_stored {content : String → Option Body} {id : Uuid} {base : Nat} (h : base < 900)
    (hbody : content (log.indexPath id) = some (.page (.leaf (segmentsFrom base)))) :
    log.StoredPage content (leafOf id base) (.leaf (segmentsFrom base)) :=
  ⟨hbody, rfl, rfl, leafOf_valid id h, leafOf_checked id h, rfl⟩

theorem tree_forest : log.Forest indexPages [branch] [branch.object, (leafOf 0 0).object,
    (leafOf 1 64).object] (segmentsFrom 0 ++ segmentsFrom 64) := by
  have hleaves : ∀ id, id ≠ 2 → indexPages (log.indexPath id) = leafPages (log.indexPath id) :=
    fun id hid => Function.update_of_ne (indexPath_ne hid) ..
  have hzero : log.StoredPage indexPages (leafOf 0 0) (.leaf (segmentsFrom 0)) :=
    leaf_stored (by decide) ((hleaves 0 (by decide)).trans leafPages_zero)
  have hone : log.StoredPage indexPages (leafOf 1 64) (.leaf (segmentsFrom 64)) :=
    leaf_stored (by decide) ((hleaves 1 (by decide)).trans leafPages_one)
  have hbranch : log.StoredPage indexPages branch branchPage :=
    ⟨Function.update_self .., rfl, rfl, branch_valid, branch_checked, rfl⟩
  exact .of_branch hbranch (.append (Forest.of_leaf hzero) (Forest.of_leaf hone))

theorem tree_answered : Walk (log.Answered indexPages) treeRoot.tree.toList [branch.object,
    (leafOf 0 0).object, (leafOf 1 64).object] (segmentsFrom 0 ++ segmentsFrom 64) :=
  tree_forest.imp fun _ _ _ hpage => hpage.answered

theorem tree_objects_nodup : [branch.object, (leafOf 0 0).object, (leafOf 1 64).object].Nodup := by
  have hne : ∀ {id id' : Uuid}, id ≠ id' → log.indexPath id ≠ log.indexPath id' := indexPath_ne
  refine List.nodup_cons.mpr ⟨?_, List.nodup_cons.mpr ⟨?_, List.nodup_singleton _⟩⟩
  · simp only [List.mem_cons, List.not_mem_nil, or_false, not_or]
    exact ⟨hne (by decide), hne (by decide)⟩
  · simp only [List.mem_cons, List.not_mem_nil, or_false]
    exact hne (by decide)

@[simp] theorem length_segmentsFrom (base : Nat) : (segmentsFrom base).length = 64 := by
  simp [segmentsFrom, pageEntries]

/-! ## The whole partition in a store -/

theorem plain_admitted :
    log.Admitted ([plainRecord], sha256Hex (.raw (toBeBytes 0 ++ plainTail))) := by
  have hok : log.admitBatches [[plainRecord]] =
      .ok [sha256Hex (.raw (toBeBytes 0 ++ plainTail))] := rfl
  exact (admitBatches_eq_ok hok).2.2.2.2 _ (List.mem_singleton_self _)

/-- The segments of the index. -/
def treeSegments : List Segment := (List.range' 0 130).map segmentAt

theorem treeSegments_eq : segmentsFrom 0 ++ segmentsFrom 64 ++ treeRoot.tail = treeSegments := by
  have htail : treeRoot.tail = (List.range' 128 2).map segmentAt := rfl
  rw [htail, segmentsFrom, segmentsFrom, ← List.map_append, ← List.map_append]
  rfl

theorem treeSegments_valid : ∀ s ∈ treeSegments, log.ValidSegment s := by
  intro s hs
  obtain ⟨i, hi, rfl⟩ := List.mem_map.mp hs
  rw [List.mem_range'_1] at hi
  exact segmentAt_valid (by omega)

/-- The manifest, the pages and the record objects. -/
def treeObjects (path : String) : Option Body :=
  if path = log.manifestPath then some (.manifest (.indexed treeRoot))
  else match (List.range 130).find? fun i => path = (segmentAt i).object with
    | some i => some (batchAt i)
    | none => indexPages path

theorem treeObjects_manifest : treeObjects log.manifestPath = some (.manifest (.indexed treeRoot)) :=
  if_pos rfl

theorem ne_manifestPath {path : String} (h : log.Named path) : path ≠ log.manifestPath := by
  rintro rfl
  exact log.manifestPath_not_filed (q := 0) le_rfl le_rfl h.filed

theorem treeObjects_segment {i : Nat} (h : i < 130) :
    treeObjects (segmentAt i).object = some (batchAt i) := by
  have hne : (segmentAt i).object ≠ log.manifestPath := ne_manifestPath ⟨_, log.segmentPath_mem _⟩
  have hfind : (List.range 130).find? (fun j => (segmentAt i).object = (segmentAt j).object) =
      some i := by
    rw [List.find?_eq_some_iff_getElem]
    refine ⟨by simp, i, by simpa using h, by simp, fun j hj => ?_⟩
    simp only [List.getElem_range, Bool.not_eq_true', decide_eq_false_iff_not]
    intro heq
    have := segmentAt_injective (by omega) (by omega) heq
    omega
  unfold treeObjects
  rw [if_neg hne, hfind]

/-- No record object has this name. -/
theorem treeObjects_other {path : String} (hmanifest : path ≠ log.manifestPath)
    (h : ∀ i < 130, path ≠ (segmentAt i).object) : treeObjects path = indexPages path := by
  have hfind : (List.range 130).find? (fun j => path = (segmentAt j).object) = none := by
    rw [List.find?_eq_none]
    intro j hj
    simpa using h j (List.mem_range.mp hj)
  unfold treeObjects
  rw [if_neg hmanifest, hfind]

theorem treeObjects_page (id : Uuid) :
    treeObjects (log.indexPath id) = indexPages (log.indexPath id) :=
  treeObjects_other (ne_manifestPath ⟨id, log.indexPath_mem id⟩) fun _ _ =>
    (log.segmentPath_ne_indexPath _ id).symm

theorem treeObjects_free {id : Uuid} (h : 130 ≤ id.toNat) :
    ∀ path ∈ log.names id, treeObjects path = none := by
  intro path hpath
  have hid : ∀ {id' : Uuid}, path ∈ log.names id' → 130 ≤ id'.toNat := fun hmem =>
    log.names_disjoint hpath hmem ▸ h
  have hpage : ∀ {id' : Uuid}, id'.toNat < 130 → path ≠ log.indexPath id' := by
    rintro id' hlt rfl
    exact absurd (hid (log.indexPath_mem id')) (by omega)
  rw [treeObjects_other (ne_manifestPath ⟨id, hpath⟩)]
  · unfold indexPages
    rw [Function.update_of_ne (hpage (by decide))]
    exact leafPages_other (hpage (by decide)) (hpage (by decide))
  · rintro i hi rfl
    have hlarge := hid (log.segmentPath_mem (BitVec.ofNat 128 i))
    simp only [BitVec.toNat_ofNat] at hlarge
    omega

theorem treeSegments_stored : log.Stored treeObjects treeSegments := by
  intro s hs
  obtain ⟨i, hi, rfl⟩ := List.mem_map.mp hs
  rw [List.mem_range'_1] at hi
  have hof : log.SegmentOf 0 ([plainRecord], (i : Int)) (toBeBytes i ++ plainTail) (segmentAt i) :=
    ⟨rfl, rfl, encodeRecord_plain i, by simp [segmentAt, segment, plainTail], rfl, rfl⟩
  refine ⟨_, treeObjects_segment (by omega), by simp [segmentAt, segment, plainTail], ⟨_, rfl⟩, ?_⟩
  exact fun kafka => hof.readable kafka plain_admitted (by omega) (by simp [i64Max]; omega)

/-- The root stands in the store. -/
theorem tree_indexed : log.Indexed treeObjects treeRoot [branch.object, (leafOf 0 0).object,
    (leafOf 1 64).object] treeSegments 130 where
  forest := by
    refine ⟨_, tree_forest.mono ?_, treeSegments_eq.symm⟩
    simp only [List.mem_cons, List.not_mem_nil, or_false]
    rintro o (rfl | rfl | rfl) <;> exact treeObjects_page _
  first := by
    rintro r hr
    obtain rfl : branch = r := by simpa [treeRoot] using hr
    rfl
  tiles := segmentAt_tiles 0 130
  valid := treeSegments_valid
  stored := treeSegments_stored
  nodup := by
    -- pages and segments have different names
    refine List.nodup_append.mpr ⟨tree_objects_nodup, segmentAt_nodup (by decide), ?_⟩
    rintro o ho o' ho' rfl
    obtain ⟨s, hs, rfl⟩ := List.mem_map.mp ho'
    obtain ⟨i, -, rfl⟩ := List.mem_map.mp hs
    simp only [List.mem_cons, List.not_mem_nil, or_false] at ho
    rcases ho with ho | ho | ho <;> exact log.segmentPath_ne_indexPath _ _ ho
  start_nonneg := le_rfl
  tail_le := by decide

end Walstream.Log.Reference

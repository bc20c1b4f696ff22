import Walstream.Log.Records

/-!
# The offset index

`index.rs`: a manifest root owns a bounded tail of segments; sealed leaves and their
ancestors are immutable pages, written before the root that refers to them.

Every recursion over pages goes down because a page is only used after it was checked
against its reference (`checkPage`), and the check fixes the level of its children.
-/

namespace Walstream.Log

open Interaction

/-! ## References, children, roots -/

namespace PageRef

/-- `PageRef::capacity`. -/
def capacity (r : PageRef) : Nat := (checkedPowU64 pageEntries (r.level + 1)).getD u64Max

/-- `PageRef::full`. -/
def full (r : PageRef) : Bool := r.segmentCount == r.capacity

end PageRef

/-- What a page says about itself: first offset, next offset, segment count, level. -/
abbrev PageBounds := Int × Int × Nat × Nat

/-- What a reference says about its page. -/
def PageRef.bounds (r : PageRef) : PageBounds :=
  (r.firstOffset, r.nextOffset, r.segmentCount, r.level)

namespace PartitionLog

variable (self : PartitionLog)

/-- `PageRef::validate`. -/
def validatePageRef (r : PageRef) : Except LogError Unit :=
  rejectIf (self.crates.namesUuid (indexNamespace self.keyPrefix self.topic self.partition)
        ".json" r.object = false ∨
      r.level > maxIndexLevel ∨ r.firstOffset < 0 ∨ r.nextOffset ≤ r.firstOffset ∨
      r.segmentCount = 0 ∨ (r.segmentCount : Int) > r.nextOffset - r.firstOffset ∨
      r.segmentCount > r.capacity ∨ r.byteLength = 0 ∨ r.byteLength > maxManifestBytes ∨
      validChecksum r.sha256 = false)
    (invalid "invalid index page reference")

/-- The loop of `validate_children`: is this the last child, the next expected offset, the
count so far and the objects seen. -/
def validateChildrenFrom (level : Nat) :
    List PageRef → Int → Nat → List String → Except LogError (Int × Nat)
  | [], next, count, _ => .ok (next, count)
  | child :: children, next, count, objects => do
    self.validatePageRef child
    rejectIf (child.firstOffset ≠ next ∨ child.level ≠ level ∨ child.object ∈ objects ∨
        (children ≠ [] ∧ child.full = false))
      (invalid "index children have inconsistent ranges or shape")
    let count ← okOr (checkedAddU64 count child.segmentCount) .offsetOverflow
    validateChildrenFrom level children child.nextOffset count (child.object :: objects)

/-- `validate_children`. -/
def validateChildren (children : List PageRef) : Except LogError PageBounds :=
  match children with
  | [] => .error (invalid "empty index branch")
  | first :: _ => do
    rejectIf (children.length > pageEntries ∨ first.level ≥ maxIndexLevel)
      (invalid "index branch exceeds limit")
    let (next, count) ← self.validateChildrenFrom first.level children first.firstOffset 0 []
    return (first.firstOffset, next, count, first.level + 1)

/-- `ProducerRef::validate`. -/
def validateProducerRef (r : ProducerRef) : Except LogError Unit :=
  rejectIf (self.crates.namesUuid (producerNamespace self.keyPrefix self.topic self.partition)
        ".json" r.object = false ∨
      r.firstId < 0 ∨ r.lastId < r.firstId ∨ r.count = 0 ∨
      (r.count : Int) > r.lastId - r.firstId + 1 ∨ r.level > maxProducerLevel ∨
      r.count > (checkedPowU64 pageEntries (r.level + 1)).getD u64Max ∨
      r.byteLength = 0 ∨ r.byteLength > maxManifestBytes ∨ validChecksum r.sha256 = false)
    (invalid "invalid producer page reference")

/-- The producer directory in `Root::validate`. -/
def validateRootProducers (root : Root) : Except LogError Unit :=
  match root.producers with
  | some producers => self.validateProducerRef producers
  | none => .ok ()

/-- The tree in `Root::validate`: where the tail must start, and the segments before it. -/
def validateRootTree (root : Root) : Except LogError (Int × Nat) :=
  match root.tree with
  | some tree => do
    self.validatePageRef tree
    rejectIf (tree.firstOffset ≠ root.startOffset)
      (invalid "index must start at the retained offset")
    return (tree.nextOffset, tree.segmentCount)
  | none => .ok (root.startOffset, 0)

/-- `Root::validate`. -/
def validateRoot (root : Root) : Except LogError Unit := do
  rejectIf ((root.schema ≠ 2 ∧ root.schema ≠ 3 ∧ root.schema ≠ indexSchema) ∨
      root.tail.length > pageEntries ∨ root.startOffset < 0 ∨
      root.nextOffset < root.startOffset ∨
      (root.schema ≥ 3 ∧ root.adoptedAtMs = none) ∨
      (root.schema < 4 ∧ root.producers ≠ none) ∨
      (root.schema = 2 ∧ (root.startOffset ≠ 0 ∨ root.adoptedAtMs ≠ none ∨
        ∃ segment ∈ root.tail, segment.receivedAtMs ≠ none)))
    (invalid "unsupported or oversized index root")
  self.validateRootProducers root
  let (start, count) ← self.validateRootTree root
  let next ← self.validateSegments root.tail start
  rejectIf (next ≠ root.nextOffset ∨ count + root.tail.length > u64Max ∨
      count + root.tail.length > root.revision ∨
      (root.schema = 2 ∧ count + root.tail.length ≠ root.revision) ∨
      (root.tail = [] ∧ root.tree ≠ none))
    (invalid "index root range or revision is inconsistent")

/-! ## Pages -/

/-- The bounds of a page that is about to be written. -/
def newPageBounds : Page → Except LogError PageBounds
  | .leaf [] => .error (invalid "empty index leaf")
  | .leaf (first :: segments) => do
    let next ← self.validateSegments (first :: segments) first.baseOffset
    return (first.baseOffset, next, (first :: segments).length, 0)
  | .branch children => self.validateChildren children

/-- The bounds of a page that was read for `reference`. -/
def readPageBounds (reference : PageRef) : Page → Except LogError PageBounds
  | .leaf segments => do
    rejectIf (segments.length ≠ pageEntries) (invalid "sealed index leaf must be full")
    let next ← self.validateSegments segments reference.firstOffset
    return (reference.firstOffset, next, segments.length, 0)
  | .branch children => self.validateChildren children

/-- The page is what its reference promises. -/
def checkPage (reference : PageRef) (page : Page) : Except LogError Unit := do
  let actual ← self.readPageBounds reference page
  rejectIf (actual ≠ reference.bounds)
    (invalid "index page does not match parent range, count, or level")

/-- A page that was checked against its reference. -/
abbrev CheckedPage (reference : PageRef) := {page : Page // self.checkPage reference page = .ok ()}

/-- `write_page`. -/
def writePage (page : Page) : Engine PageRef := do
  let (firstOffset, nextOffset, segmentCount, level) ← Engine.check (self.newPageBounds page)
  let body := Body.page page
  if self.crates.size body > maxManifestBytes then
    throw (invalid "index page exceeds byte limit")
  let object := self.indexPath (← Engine.perform .newV4)
  let reference : PageRef := {
    object := object
    firstOffset := firstOffset
    nextOffset := nextOffset
    segmentCount := segmentCount
    level := level
    byteLength := self.crates.size body
    sha256 := self.crates.sha256Hex body }
  Engine.check (self.validatePageRef reference)
  let _ ← Engine.orStore (← Engine.perform (.put object body .create))
  return reference

/-- The page that an object's body holds: at most 64 entries are read. -/
def parsePage (body : Body) : Except LogError Page :=
  match body with
  | .page (.leaf segments) =>
    if segments.length ≤ pageEntries then .ok (.leaf segments)
    else .error (invalid (self.crates.jsonError body))
  | .page (.branch children) =>
    if children.length ≤ pageEntries then .ok (.branch children)
    else .error (invalid (self.crates.jsonError body))
  | body => .error (invalid (self.crates.jsonError body))

/-- The body of `read_page` after the GET. -/
def acceptPage (reference : PageRef) (result : GetResult Body) :
    Except LogError (self.CheckedPage reference) := do
  rejectIf (result.size ≠ reference.byteLength) (invalid "index page length mismatch")
  let body ← (self.crates.collectBounded result reference.byteLength).mapError fun
    | .store e => .objectStore e
    | .tooLarge => invalid "index page body exceeds reference length"
  rejectIf (self.crates.size body ≠ reference.byteLength ∨
      self.crates.sha256Hex body ≠ reference.sha256)
    (invalid "index page length or checksum mismatch")
  let page ← self.parsePage body
  match h : self.checkPage reference page with
  | .ok () => .ok ⟨page, h⟩
  | .error e => .error e

/-- `read_page`. -/
def readPage (reference : PageRef) : Engine (self.CheckedPage reference) := do
  Engine.check (self.validatePageRef reference)
  let result ← Engine.orStore (← Engine.perform (.get (self.crates.pathFrom reference.object)))
  Engine.check (self.acceptPage reference result)

/-! ## Levels go down -/

theorem validateChildrenFrom_level {level : Nat} {children : List PageRef} {next : Int}
    {count : Nat} {objects : List String} {out : Int × Nat}
    (h : self.validateChildrenFrom level children next count objects = .ok out) :
    ∀ child ∈ children, child.level = level := by
  induction children generalizing next count objects with
  | nil => simp
  | cons child children ih =>
    simp only [validateChildrenFrom, rejectIf, bind, Except.bind] at h
    split at h
    · cases h
    · split at h
      · cases h
      · rename_i hok
        split at hok
        · cases hok
        · rename_i hshape
          push Not at hshape
          split at h
          · cases h
          · intro c hc
            rcases List.mem_cons.mp hc with rfl | hc
            · exact hshape.2.1
            · exact ih h c hc

/-- The children of a checked page are one level below its reference, and at most 64. -/
theorem checkPage_branch {reference : PageRef} {children : List PageRef}
    (h : self.checkPage reference (.branch children) = .ok ()) :
    children.length ≤ pageEntries ∧ ∀ child ∈ children, child.level + 1 = reference.level := by
  -- a branch without children is refused
  cases children with
  | nil => simp [checkPage, readPageBounds, validateChildren, bind, Except.bind] at h
  | cons first rest =>
    simp only [checkPage, readPageBounds, validateChildren, rejectIf, bind, Except.bind,
      pure, Except.pure] at h
    split at h
    · cases h
    · rename_i actual hactual
      split at hactual
      · cases hactual
      -- of all checks only the number and the level of the children matter here
      · rename_i hlimit
        split at hlimit
        · cases hlimit
        · rename_i hbound
          push Not at hbound
          split at hactual
          · cases hactual
          · rename_i out hout
            split at h
            · cases h
            · rename_i heq
              push Not at heq
              cases hactual
              -- the level of the first child is that of all
              have hlevel : first.level + 1 = reference.level := by
                have := congrArg (fun b : PageBounds => b.2.2.2) heq
                simpa [PageRef.bounds] using this
              refine ⟨hbound.1, fun child hchild => ?_⟩
              rw [self.validateChildrenFrom_level hout child hchild, hlevel]

theorem checkPage_levels {reference : PageRef} {children : List PageRef}
    (h : self.checkPage reference (.branch children) = .ok ()) :
    (children.map (·.level)).length ≤ pageEntries ∧
      ∀ l ∈ children.map (·.level), l + 1 = reference.level := by
  obtain ⟨hlen, hlevel⟩ := self.checkPage_branch h
  exact ⟨by simpa using hlen, by simpa using hlevel⟩

/-! ## Growing the index -/

/-- The loop of `index_path`, with the number of levels still missing. -/
def indexPathLoop (level : Nat) : Nat → PageRef → Engine PageRef
  | 0, leaf => pure leaf
  | missing + 1, leaf =>
    if leaf.level < level then do
      let leaf ← self.writePage (.branch [leaf])
      indexPathLoop level missing leaf
    else pure leaf

/-- `index_path`. -/
def indexPathTo (leaf : PageRef) (level : Nat) : Engine PageRef :=
  self.indexPathLoop level (level - leaf.level) leaf

/-- `insert_leaf`. -/
def insertLeaf (tree leaf : PageRef) : Engine PageRef := do
  if tree.full then
    if tree.level = maxIndexLevel then throw .offsetOverflow
    let right ← self.indexPathTo leaf tree.level
    self.writePage (.branch [tree, right])
  else
    match ← self.readPage tree with
    | ⟨.leaf _, _⟩ => throw (invalid "incomplete sealed leaf")
    | ⟨.branch children, h⟩ =>
      match hlast : children.getLast? with
      | none => throw (invalid "empty index branch")
      | some last =>
        if last.full then
          let right ← self.indexPathTo leaf last.level
          self.writePage (.branch (children.dropLast ++ [last, right]))
        else
          have := (self.checkPage_branch h).2 last (List.mem_of_getLast? hlast)
          let child ← insertLeaf last leaf
          self.writePage (.branch (children.dropLast ++ [child]))
termination_by tree.level
decreasing_by omega

/-- `seal_tail`. -/
def sealTail (root : Root) : Engine Root := do
  let leaf ← self.writePage (.leaf root.tail)
  let tree ← match root.tree with
    | some tree => self.insertLeaf tree leaf
    | none => pure leaf
  return { root with tree := some tree, tail := [] }

/-- `if root.tail.len() == PAGE_ENTRIES { root = self.seal_tail(root)? }`. -/
def sealFullTail (root : Root) : Engine Root :=
  if root.tail.length = pageEntries then self.sealTail root else pure root

/-- The loop of `migrate_manifest`. -/
def migrateSegments : List Segment → Root → Engine Root
  | [], root => pure root
  | segment :: segments, root => do
    let root ← self.sealFullTail root
    migrateSegments segments { root with tail := root.tail ++ [segment] }

/-- `migrate_manifest`. -/
def migrateManifest (legacy : Manifest) (nowMs : Nat) : Engine Root := do
  let root ← self.migrateSegments legacy.segments { Root.empty with adoptedAtMs := some nowMs }
  return { root with revision := legacy.revision, nextOffset := legacy.nextOffset }

/-! ## Rebuilding the index -/

/-- `chunks(PAGE_ENTRIES)`. -/
def chunks {α : Type} (items : List α) : List (List α) :=
  if items = [] then [] else items.take pageEntries :: chunks (items.drop pageEntries)
termination_by items.length
decreasing_by
  rename_i h
  have := List.length_pos_iff.mpr h
  simp only [List.length_drop, pageEntries]
  omega

/-- The loop that counts the pages of each level in advance. -/
def countPages (levelCount count : Nat) (maximum : Nat) : Except LogError Nat :=
  if levelCount = 0 then .ok count
  else do
    let count ← okOr (checkedAddU64 count levelCount) (.maintenanceBudget maximum)
    if levelCount = 1 then .ok count
    else countPages ((levelCount + pageEntries - 1) / pageEntries) count maximum
termination_by levelCount
decreasing_by simp only [pageEntries]; omega

/-- Write the pages; the result has one reference for each. -/
def writePages : (pages : List Page) →
    Engine {references : List PageRef // references.length = pages.length}
  | [] => pure ⟨[], rfl⟩
  | page :: pages => do
    let reference ← self.writePage page
    let ⟨references, h⟩ ← writePages pages
    return ⟨reference :: references, by simp [h]⟩

theorem length_chunks_lt {α : Type} {items : List α} (h : 1 < items.length) :
    (chunks items).length < items.length := by
  suffices ∀ n : Nat, ∀ items : List α, items.length ≤ n →
      (chunks items).length ≤ items.length ∧
        (1 < items.length → (chunks items).length < items.length) from
    (this _ items le_rfl).2 h
  intro n
  induction n with
  | zero =>
    intro items hle
    have hnil : items = [] := List.length_eq_zero_iff.mp (by omega)
    subst hnil
    simp [chunks]
  | succ n ih =>
    intro items hle
    rw [chunks]
    split
    · simp_all
    · rename_i hne
      have hpos := List.length_pos_iff.mpr hne
      have hrest := (ih (items.drop pageEntries)
        (by simp only [List.length_drop, pageEntries]; omega)).1
      simp only [List.length_cons, List.length_drop, pageEntries] at hrest ⊢
      omega

/-- The levels of branches above `pages`, up to a level of one page. -/
def writeBranches (pages : List PageRef) : Engine (List PageRef) :=
  if h : 1 < pages.length then do
    let ⟨parents, hlen⟩ ← self.writePages ((chunks pages).map .branch)
    have : parents.length < pages.length := by
      rw [hlen, List.length_map]
      exact length_chunks_lt h
    writeBranches parents
  else pure pages
termination_by pages.length

/-- `rebuild_index`. -/
def rebuildIndex (segments : List Segment) (startOffset nextOffset : Int) (maximum : Nat) :
    Engine Root := do
  let sealedCount := (segments.length - 1) / pageEntries * pageEntries
  let count ← Engine.check (countPages (sealedCount / pageEntries) segments.length maximum)
  if count > maximum then throw (.maintenanceBudget maximum)
  let ⟨leaves, _⟩ ← self.writePages ((chunks (segments.take sealedCount)).map .leaf)
  let pages ← self.writeBranches leaves
  return { Root.empty with
    startOffset := startOffset
    nextOffset := nextOffset
    tree := pages.getLast?
    tail := segments.drop sealedCount }

end PartitionLog

/-! ## Traversal -/

/-- `maintenance::LiveGraph`. -/
structure LiveGraph where
  segments : List Segment
  objects : List String
  deriving DecidableEq, Repr

/-- `LiveGraph::insert`. -/
def LiveGraph.insert (graph : LiveGraph) (object : String) (maximum : Nat) :
    Except LogError LiveGraph := do
  rejectIf (graph.objects.length ≥ maximum) (.maintenanceBudget maximum)
  rejectIf (object ∈ graph.objects) (invalid "duplicate object in live graph")
  return { graph with objects := object :: graph.objects }

/-- `Selection`. -/
structure Selection where
  offset : Int
  remaining : Nat
  allowOversized : Bool
  segments : List Segment
  oversizedFirstBatch : Bool
  deriving DecidableEq, Repr

/-- `Selection::new`. -/
def Selection.new (offset : Int) (maximumBytes : Nat) (allowOversized : Bool) : Selection :=
  ⟨offset, maximumBytes, allowOversized, [], false⟩

/-- `Selection::push`: the new selection and whether to go on. -/
def Selection.push (selection : Selection) (segment : Segment) :
    Except LogError (Selection × Bool) := do
  let last ← segment.lastOffset
  if last < selection.offset then return (selection, true)
  if segment.byteLength > selection.remaining then
    if selection.segments = [] ∧ selection.allowOversized = true then
      return ({ selection with
        segments := selection.segments ++ [segment], oversizedFirstBatch := true }, false)
    else return (selection, false)
  let remaining := selection.remaining - segment.byteLength
  return ({ selection with remaining := remaining, segments := selection.segments ++ [segment] },
    decide (remaining ≠ 0))

/-- Push segments until one of them completes the selection. -/
def Selection.pushAll (selection : Selection) : List Segment → Except LogError (Selection × Bool)
  | [] => .ok (selection, true)
  | segment :: segments => do
    let (selection, more) ← selection.push segment
    if more then selection.pushAll segments else .ok (selection, false)

/-- How much work a stack of references to pages of these levels can be: a page weighs
more than 64 pages of the level below, so replacing a reference by its children makes the
stack lighter. -/
def stackWeight (levels : List Nat) : Nat :=
  (levels.map fun level => (pageEntries + 1) ^ level).sum

theorem stackWeight_append (l₁ l₂ : List Nat) :
    stackWeight (l₁ ++ l₂) = stackWeight l₁ + stackWeight l₂ := by
  simp [stackWeight]

theorem stackWeight_cons (level : Nat) (levels : List Nat) :
    stackWeight (level :: levels) = (pageEntries + 1) ^ level + stackWeight levels := by
  simp [stackWeight]

theorem stackWeight_lt_cons (level : Nat) (levels : List Nat) :
    stackWeight levels < stackWeight (level :: levels) := by
  rw [stackWeight_cons]
  exact Nat.lt_add_of_pos_left (Nat.pow_pos (Nat.succ_pos _))

theorem stackWeight_sublist {l₁ l₂ : List Nat} (h : l₁.Sublist l₂) :
    stackWeight l₁ ≤ stackWeight l₂ :=
  List.Sublist.sum_le_sum (h.map _) fun _ _ => Nat.zero_le _

theorem stackWeight_children {level : Nat} {levels : List Nat}
    (hlen : levels.length ≤ pageEntries) (hlevel : ∀ l ∈ levels, l + 1 = level) :
    stackWeight levels < (pageEntries + 1) ^ level := by
  cases level with
  | zero =>
    cases levels with
    | nil => simp [stackWeight]
    | cons l _ => exact absurd (hlevel l (by simp)) (by omega)
  | succ level =>
    have hsum : stackWeight levels ≤ levels.length * (pageEntries + 1) ^ level := by
      unfold stackWeight
      have hall : ∀ n ∈ levels.map fun l => (pageEntries + 1) ^ l,
          n ≤ (pageEntries + 1) ^ level := by
        intro n hn
        obtain ⟨l, hl, rfl⟩ := List.mem_map.mp hn
        rw [Nat.add_right_cancel (hlevel l hl)]
      simpa using List.sum_le_card_nsmul _ _ hall
    calc stackWeight levels ≤ levels.length * (pageEntries + 1) ^ level := hsum
      _ ≤ pageEntries * (pageEntries + 1) ^ level := Nat.mul_le_mul_right _ hlen
      _ < (pageEntries + 1) ^ (level + 1) := by
        rw [pow_succ, Nat.mul_comm]
        exact Nat.mul_lt_mul_of_pos_left (by simp [pageEntries]) (Nat.pow_pos (Nat.succ_pos _))

namespace PartitionLog

variable (self : PartitionLog)

/-- The loop of `trace_index`; the top of the stack is the head of the list. -/
def traceIndexLoop (maximum : Nat) (stack : List PageRef) (graph : LiveGraph) :
    Engine LiveGraph := do
  match stack with
  | [] => pure graph
  | reference :: stack =>
    let graph ← Engine.check (graph.insert reference.object maximum)
    match ← self.readPage reference with
    | ⟨.leaf segments, _⟩ =>
      if graph.segments.length + segments.length > maximum then
        throw (.maintenanceBudget maximum)
      traceIndexLoop maximum stack { graph with segments := graph.segments ++ segments }
    | ⟨.branch children, h⟩ =>
      have := stackWeight_children (self.checkPage_levels h).1 (self.checkPage_levels h).2
      traceIndexLoop maximum (children ++ stack) graph
termination_by stackWeight (stack.map (·.level))
decreasing_by
  · exact stackWeight_lt_cons reference.level _
  · rw [List.map_append, stackWeight_append, List.map_cons, stackWeight_cons]
    omega

/-- `trace_index`. -/
def traceIndex (root : Root) (graph : LiveGraph) (maximum : Nat) : Engine LiveGraph := do
  let graph ← self.traceIndexLoop maximum root.tree.toList graph
  if graph.segments.length + root.tail.length > maximum then
    throw (.maintenanceBudget maximum)
  return { graph with segments := graph.segments ++ root.tail }

/-- The loop of `indexed_segments`: the selection, and whether the tail is to be pushed. -/
def selectIndexLoop (stack : List PageRef) (selection : Selection) :
    Engine (Selection × Bool) := do
  match stack with
  | [] => pure (selection, true)
  | reference :: stack =>
    if reference.nextOffset ≤ selection.offset then selectIndexLoop stack selection
    else
      match ← self.readPage reference with
      | ⟨.leaf segments, _⟩ =>
        match ← Engine.check (selection.pushAll segments) with
        | (selection, true) => selectIndexLoop stack selection
        | (selection, false) => pure (selection, false)
      | ⟨.branch children, h⟩ =>
        have := stackWeight_children (self.checkPage_levels h).1 (self.checkPage_levels h).2
        selectIndexLoop (children.filter (fun r => r.nextOffset > selection.offset) ++ stack)
          selection
termination_by stackWeight (stack.map (·.level))
decreasing_by
  · exact stackWeight_lt_cons reference.level _
  · exact stackWeight_lt_cons reference.level _
  · have := stackWeight_sublist ((List.filter_sublist
      (p := fun r => decide (r.nextOffset > selection.offset)) (l := children)).map (·.level))
    rw [List.map_append, stackWeight_append, List.map_cons, stackWeight_cons]
    omega

/-- `indexed_segments`. -/
def indexedSegments (root : Root) (selection : Selection) : Engine Selection := do
  match ← self.selectIndexLoop root.tree.toList selection with
  | (selection, false) => pure selection
  | (selection, true) =>
    let (selection, _) ← Engine.check (selection.pushAll root.tail)
    return selection

end PartitionLog

end Walstream.Log

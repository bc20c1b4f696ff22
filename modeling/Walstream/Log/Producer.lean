import Walstream.Log.Index

/-!
# The producer directory

`producer.rs`: the decision whether a batch continues its producer's sequence, and the
immutable B+tree of producer states that the manifest root refers to.
-/

namespace Walstream.Log

open Interaction

/-! ## The decision on one batch -/

/-- `advance`: sequences wrap at `2 ^ 31`. -/
def advance (sequence : Int) (count : Nat) : Int := (sequence + count) % 2 ^ 31

namespace ProducerState

/-- `ProducerState::new`. -/
def new (id epoch : Int) : ProducerState := ⟨id, epoch, []⟩

/-- The sequence the next batch must have. -/
def expected (state : ProducerState) : Int :=
  match state.batches.getLast? with
  | some b => advance b.sequence b.count
  | none => 0

/-- `ProducerState::accept`. -/
def accept (state : ProducerState) (epoch sequence : Int) (count : Nat) (fingerprint : String)
    (nextOffset : Int) : Except LogError (ProducerState × AppendResult) := do
  rejectIf (epoch < state.epoch) .invalidProducerEpoch
  rejectIf (epoch > state.epoch ∧ sequence ≠ 0) .outOfOrderSequence
  let state := if epoch > state.epoch then { state with epoch := epoch, batches := [] } else state
  match state.batches.find? (·.sequence = sequence) with
  | some batch =>
    rejectIf (batch.count ≠ count ∨ batch.fingerprint ≠ fingerprint) .conflictingSequence
    return (state, ⟨batch.baseOffset, batch.baseOffset + count - 1⟩)
  | none =>
    rejectIf (sequence ≠ state.expected) .outOfOrderSequence
    let «end» ← okOr (checkedAddI64 nextOffset count) .offsetOverflow
    let batches := state.batches ++ [⟨sequence, count, nextOffset, fingerprint⟩]
    let batches := if batches.length > retryBatches then batches.drop 1 else batches
    return ({ state with batches := batches }, ⟨nextOffset, «end» - 1⟩)

/-- The loop of `ProducerState::validate`. -/
def validateBatches (nextOffset : Int) :
    Option BatchIdentity → List BatchIdentity → Except LogError Unit
  | _, [] => .ok ()
  | previous, batch :: batches => do
    rejectIf (batch.sequence < 0 ∨ batch.count = 0 ∨ batch.count > maxBatchRecords ∨
        batch.baseOffset < 0 ∨ checkedAddI64 batch.baseOffset batch.count = none ∨
        batch.baseOffset + batch.count > nextOffset ∨
        validChecksum batch.fingerprint = false ∨
        ∃ p ∈ previous, advance p.sequence p.count ≠ batch.sequence ∨
          p.baseOffset + p.count > batch.baseOffset)
      (invalid "invalid producer batch history")
    validateBatches nextOffset (some batch) batches

/-- `ProducerState::validate`. -/
def validate (state : ProducerState) (nextOffset : Int) : Except LogError Unit := do
  rejectIf (state.id < 0 ∨ state.epoch < 0 ∨ state.batches = [] ∨
    state.batches.length > retryBatches) (invalid "invalid producer state")
  validateBatches nextOffset none state.batches

end ProducerState

/-! ## Pages -/

/-- What a page or a reference says: first id, last id, count, level. -/
abbrev ProducerBounds := Int × Int × Nat × Nat

def ProducerRef.bounds (r : ProducerRef) : ProducerBounds :=
  (r.firstId, r.lastId, r.count, r.level)

/-- `producers.windows(2)` in strictly increasing order of ids. -/
def idsIncrease (producers : List ProducerState) : Prop :=
  (producers.map (·.id)).IsChain (· < ·)

instance (producers : List ProducerState) : Decidable (idsIncrease producers) := by
  unfold idsIncrease; infer_instance

/-- `children.windows(2)` do not overlap. -/
def rangesIncrease (children : List ProducerRef) : Prop :=
  children.IsChain fun a b => a.lastId < b.firstId

instance (children : List ProducerRef) : Decidable (rangesIncrease children) := by
  unfold rangesIncrease; infer_instance

namespace PartitionLog

variable (self : PartitionLog)

/-- `for p in producers { p.validate(next_offset)? }`. -/
def validateStates (nextOffset : Int) : List ProducerState → Except LogError Unit
  | [] => .ok ()
  | p :: producers => do
    p.validate nextOffset
    validateStates nextOffset producers

/-- The loop over the children of `ProducerPage::bounds`. -/
def validateProducerChildren (level : Nat) : List ProducerRef → Nat → Except LogError Nat
  | [], count => .ok count
  | child :: children, count => do
    self.validateProducerRef child
    let count ← okOr (checkedAddU64 count child.count) (invalid "producer count overflow")
    rejectIf (child.level ≠ level) (invalid "unequal producer page levels")
    validateProducerChildren level children count

/-- `ProducerPage::bounds`. -/
def producerPageBounds (nextOffset : Int) : ProducerPage → Except LogError ProducerBounds
  | .leaf producers => do
    rejectIf (producers = [] ∨ producers.length > pageEntries)
      (invalid "invalid producer leaf size")
    validateStates nextOffset producers
    rejectIf (¬ idsIncrease producers) (invalid "unordered producer leaf")
    match producers.head?, producers.getLast? with
    | some first, some last => return (first.id, last.id, producers.length, 0)
    | _, _ => throw (invalid "invalid producer leaf size")
  | .branch children => do
    rejectIf (children.length < 2 ∨ children.length > pageEntries)
      (invalid "invalid producer branch size")
    match children.head?, children.getLast? with
    | some first, some last =>
      -- all children are on the level of the first one
      let count ← self.validateProducerChildren first.level children 0
      rejectIf (¬ rangesIncrease children) (invalid "overlapping producer pages")
      return (first.firstId, last.lastId, count, first.level + 1)
    | _, _ => throw (invalid "invalid producer branch size")

/-- The page is what its reference promises. -/
def checkProducerPage (nextOffset : Int) (reference : ProducerRef) (page : ProducerPage) :
    Except LogError Unit := do
  let actual ← self.producerPageBounds nextOffset page
  rejectIf (actual ≠ reference.bounds) (invalid "producer page reference mismatch")

/-- A producer page that was checked against its reference. -/
abbrev CheckedProducerPage (nextOffset : Int) (reference : ProducerRef) :=
  {page : ProducerPage // self.checkProducerPage nextOffset reference page = .ok ()}

/-- The producer page that an object's body holds: at most 64 entries, each state with at
most five batches, are read. -/
def parseProducerPage (body : Body) : Except LogError ProducerPage :=
  match body with
  -- no more entries are read than a page may have
  | .producerPage (.leaf producers) =>
    if producers.length ≤ pageEntries ∧ ∀ p ∈ producers, p.batches.length ≤ retryBatches then
      .ok (.leaf producers)
    else .error (invalid (self.crates.jsonError body))
  | .producerPage (.branch children) =>
    if children.length ≤ pageEntries then .ok (.branch children)
    else .error (invalid (self.crates.jsonError body))
  | body => .error (invalid (self.crates.jsonError body))

/-- The body of `read_producer_page` after the GET. -/
def acceptProducerPage (nextOffset : Int) (reference : ProducerRef) (result : GetResult Body) :
    Except LogError (self.CheckedProducerPage nextOffset reference) := do
  rejectIf (result.size ≠ reference.byteLength) (invalid "producer page length mismatch")
  let body ← (self.crates.collectBounded result reference.byteLength).mapError fun
    | .store e => .objectStore e
    | .tooLarge => invalid "producer page exceeds reference length"
  rejectIf (self.crates.size body ≠ reference.byteLength ∨
      self.crates.sha256Hex body ≠ reference.sha256)
    (invalid "producer page length or checksum mismatch")
  let page ← self.parseProducerPage body
  -- the page is kept together with the evidence that it was checked
  match h : self.checkProducerPage nextOffset reference page with
  | .ok () => .ok ⟨page, h⟩
  | .error e => .error e

/-- `read_producer_page`. -/
def readProducerPage (reference : ProducerRef) (nextOffset : Int) :
    Engine (self.CheckedProducerPage nextOffset reference) := do
  Engine.check (self.validateProducerRef reference)
  let result ← Engine.orStore (← Engine.perform (.get (self.crates.pathFrom reference.object)))
  Engine.check (self.acceptProducerPage nextOffset reference result)

/-- `write_producer_page`. -/
def writeProducerPage (page : ProducerPage) (nextOffset : Int) : Engine ProducerRef := do
  let (firstId, lastId, count, level) ← Engine.check (self.producerPageBounds nextOffset page)
  let body := Body.producerPage page
  let object := self.producerPath (← Engine.perform .newV4)
  let reference : ProducerRef := {
    object := object
    firstId := firstId
    lastId := lastId
    count := count
    level := level
    byteLength := self.crates.size body
    sha256 := self.crates.sha256Hex body }
  Engine.check (self.validateProducerRef reference)
  let _ ← Engine.orStore (← Engine.perform (.put object body .create))
  return reference

theorem validateProducerChildren_level {level : Nat} {children : List ProducerRef}
    {count total : Nat} (h : self.validateProducerChildren level children count = .ok total) :
    ∀ child ∈ children, child.level = level := by
  induction children generalizing count with
  | nil => simp
  | cons child children ih =>
    simp only [validateProducerChildren, rejectIf, bind, Except.bind] at h
    split at h
    · cases h
    · split at h
      · cases h
      · split at h
        · cases h
        · rename_i hok
          split at hok
          · cases hok
          · rename_i hlevel
            intro c hc
            rcases List.mem_cons.mp hc with rfl | hc
            · exact not_not.mp hlevel
            · exact ih h c hc

/-- The children of a checked page are one level below its reference, and at most 64. -/
theorem checkProducerPage_branch {nextOffset : Int} {reference : ProducerRef}
    {children : List ProducerRef}
    (h : self.checkProducerPage nextOffset reference (.branch children) = .ok ()) :
    children.length ≤ pageEntries ∧ ∀ child ∈ children, child.level + 1 = reference.level := by
  -- of all checks only the number and the level of the children matter here
  simp only [checkProducerPage, producerPageBounds, rejectIf, bind, Except.bind,
    pure, Except.pure] at h
  split at h
  · cases h
  · rename_i actual hactual
    split at hactual
    · cases hactual
    · rename_i hsize
      split at hsize
      · cases hsize
      · rename_i hbound
        push Not at hbound
        split at hactual
        · rename_i first last _ _
          split at hactual
          · cases hactual
          · rename_i total htotal
            split at hactual
            · cases hactual
            · split at h
              · cases h
              · rename_i heq
                push Not at heq
                cases hactual
                -- the level of the first child is that of all
                have hlevel : first.level + 1 = reference.level := by
                  have := congrArg (fun b : ProducerBounds => b.2.2.2) heq
                  simpa [ProducerRef.bounds] using this
                refine ⟨hbound.2, fun child hchild => ?_⟩
                rw [self.validateProducerChildren_level htotal child hchild, hlevel]
        · cases hactual

/-! ## Lookup -/

/-- The loop of `producer_state`. -/
def producerStateFrom (id nextOffset : Int) (cursor : Option ProducerRef) :
    Engine (Option ProducerState) := do
  match cursor with
  | none => pure none
  | some reference =>
    -- no page below this one can have the id
    if id < reference.firstId ∨ id > reference.lastId then pure none
    else
      match ← self.readProducerPage reference nextOffset with
      | ⟨.leaf producers, _⟩ => pure (producers.find? (·.id = id))
      | ⟨.branch children, h⟩ =>
        -- the ids of the children are ranges, between which there are gaps
        match hfind : children.find? (fun c => c.firstId ≤ id ∧ id ≤ c.lastId) with
        | none => pure none
        | some child =>
          have := (self.checkProducerPage_branch h).2 child (List.mem_of_find?_eq_some hfind)
          producerStateFrom id nextOffset (some child)
termination_by cursor.elim 0 (·.level + 1)
decreasing_by simp only [Option.elim_some]; omega

/-- `producer_state`. -/
def producerState (root : Option ProducerRef) (id nextOffset : Int) :
    Engine (Option ProducerState) :=
  self.producerStateFrom id nextOffset root

/-! ## Update -/

/-- The branches from the root to the leaf, the lowest first, each with the position that
was followed. -/
abbrev ProducerPath := List (List ProducerRef × Nat)

/-- The child of a branch under which `id` is or belongs. -/
def childPosition (children : List ProducerRef) (id : Int) : Nat :=
  (children.findIdx? fun c => id ≤ c.lastId).getD (children.length - 1)

/-- The descent of `update_producer`. -/
def descend (id nextOffset : Int) (cursor : Option ProducerRef) (path : ProducerPath) :
    Engine (List ProducerState × ProducerPath) := do
  match cursor with
  | none => pure ([], path)
  | some reference =>
    match ← self.readProducerPage reference nextOffset with
    | ⟨.leaf producers, _⟩ => pure (producers, path)
    | ⟨.branch children, h⟩ =>
      -- the id belongs below this child, though it may lie before its first id
      let position := childPosition children id
      match hchild : children[position]? with
      | none => pure ([], path)
      | some child =>
        have := (self.checkProducerPage_branch h).2 child (List.mem_of_getElem? hchild)
        descend id nextOffset (some child) ((children, position) :: path)
termination_by cursor.elim 0 (·.level + 1)
decreasing_by simp only [Option.elim_some]; omega

/-- `binary_search_by_key` and the replacement or insertion after it. -/
def upsert (state : ProducerState) : List ProducerState → List ProducerState
  | [] => [state]
  | p :: producers =>
    -- the states before it stay where they are
    if p.id < state.id then p :: upsert state producers
    else if p.id = state.id then state :: producers
    else state :: p :: producers

/-- One page, or two halves when it has too many entries. -/
def splitEntries {α : Type} (entries : List α) : List (List α) :=
  if entries.length > pageEntries then
    [entries.take (entries.length / 2), entries.drop (entries.length / 2)]
  else [entries]

/-- The pages of one level. -/
def writeProducerPages (nextOffset : Int) : List ProducerPage → Engine (List ProducerRef)
  | [] => pure []
  | page :: pages => do
    let reference ← self.writeProducerPage page nextOffset
    return reference :: (← writeProducerPages nextOffset pages)

/-- The ascent of `update_producer`. -/
def ascend (nextOffset : Int) : ProducerPath → List ProducerPage → Engine ProducerRef
  | [], pages => do
    -- one page is the new root, and two get one
    match ← self.writeProducerPages nextOffset pages with
    | [reference] => pure reference
    | references => self.writeProducerPage (.branch references) nextOffset
  | (children, position) :: path, pages => do
    let references ← self.writeProducerPages nextOffset pages
    -- the new pages take the place of the child on the way
    let children := children.take position ++ references ++ children.drop (position + 1)
    ascend nextOffset path ((splitEntries children).map .branch)

/-- `update_producer`. -/
def updateProducer (root : Option ProducerRef) (state : ProducerState) (nextOffset : Int) :
    Engine ProducerRef := do
  let (producers, path) ← self.descend state.id nextOffset root []
  self.ascend nextOffset path ((splitEntries (upsert state producers)).map .leaf)

/-! ## Traversal -/

theorem checkProducerPage_levels {nextOffset : Int} {reference : ProducerRef}
    {children : List ProducerRef}
    (h : self.checkProducerPage nextOffset reference (.branch children) = .ok ()) :
    (children.reverse.map (·.level)).length ≤ pageEntries ∧
      ∀ l ∈ children.reverse.map (·.level), l + 1 = reference.level := by
  obtain ⟨hlen, hlevel⟩ := self.checkProducerPage_branch h
  exact ⟨by simpa using hlen, by simpa using hlevel⟩

/-- The loop of `trace_producers`; the last pending reference is the head of the list. -/
def traceProducersLoop (maximum : Nat) (nextOffset : Int) (pending : List ProducerRef)
    (graph : LiveGraph) : Engine LiveGraph := do
  match pending with
  | [] => pure graph
  | reference :: pending =>
    -- a page that is reached twice is refused
    let graph ← Engine.check (graph.insert reference.object maximum)
    match ← self.readProducerPage reference nextOffset with
    | ⟨.leaf _, _⟩ => traceProducersLoop maximum nextOffset pending graph
    | ⟨.branch children, h⟩ =>
      have := stackWeight_children (self.checkProducerPage_levels h).1
        (self.checkProducerPage_levels h).2
      traceProducersLoop maximum nextOffset (children.reverse ++ pending) graph
termination_by stackWeight (pending.map (·.level))
decreasing_by
  · exact stackWeight_lt_cons reference.level _
  · rw [List.map_append, stackWeight_append, List.map_cons, stackWeight_cons]
    omega

/-- `trace_producers`. -/
def traceProducers (root : Root) (graph : LiveGraph) (maximum : Nat) : Engine LiveGraph :=
  self.traceProducersLoop maximum root.nextOffset root.producers.toList graph

end PartitionLog

end Walstream.Log

import Walstream.Interaction.Transcripts
import Walstream.Log.Maintenance
import Walstream.Log.Names

/-!
# Errors of checks

The checks of durable documents fail in few ways. `Mundane P` says that `P` admits all of
them, and the lemmas say so for every check, for the reading and writing of one document, and
for the traces and rebuilds of maintenance, whatever the store answers.
-/

namespace Walstream.Log

open Interaction

/-! ## Rules -/

section Rules

variable {φ : Cmd Body → Prop} {F : LogError → Prop} {α β : Type}

theorem obeys_check {r : Except LogError α} (h : FailsWith F r) : Obeys φ F (Engine.check r) := by
  intro log r' ht
  cases ht
  exact ⟨by simp, h⟩

theorem obeys_ask {c : Cmd Body} {f : Resp c → Engine β} (hc : φ c)
    (hf : ∀ answer, Obeys φ F (f answer)) : Obeys φ F (Engine.perform c >>= f) :=
  obeys_bind (obeys_perform hc) hf

theorem obeys_orStore {answer : Except StoreError α} {f : α → Engine β}
    (hF : ∀ e, F (.objectStore e)) (hf : ∀ a, Obeys φ F (f a)) :
    Obeys φ F (Engine.orStore answer >>= f) := by
  cases answer with
  | ok a => exact hf a
  | error e => exact obeys_throw (hF e)

end Rules

/-! ## Checks -/

/-- `P` admits the errors of checks, and those that the store reports. -/
structure Mundane (P : LogError → Prop) : Prop where
  invalid : ∀ detail, P (invalid detail)
  metadata : ∀ detail, P (.invalidTopicMetadata detail)
  overflow : P .offsetOverflow
  store : ∀ e, P (.objectStore e)

namespace PartitionLog

/-- `φ` admits the commands of preparatory work: reads, and new objects named by a UUID. -/
structure Grants (log : PartitionLog) (φ : Cmd Body → Prop) : Prop where
  get : ∀ path, φ (.get path)
  newV4 : φ .newV4
  create : ∀ path body, log.Named path → φ (.put path body .create)

/-- The command neither writes the manifest nor deletes an object. -/
def Quiet (log : PartitionLog) : Cmd Body → Prop
  | .put path _ _ => path ≠ log.manifestPath
  | .delete _ => False
  | _ => True

theorem quiet_grants {log : PartitionLog} (hp : 0 ≤ log.partition) : log.Grants log.Quiet where
  get := fun _ => trivial
  newV4 := trivial
  create := fun path _ hnamed heq => by
    subst heq
    exact log.manifestPath_not_filed hp hp hnamed.filed

variable (self : PartitionLog) {P : LogError → Prop} {φ : Cmd Body → Prop} (hP : Mundane P)

include hP

theorem validateSegmentsFrom_failsWith (segments : List Segment) (next : Int)
    (objects : List String) : FailsWith P (self.validateSegmentsFrom segments next objects) := by
  induction segments generalizing next objects with
  | nil => simp [validateSegmentsFrom]
  | cons s segments ih =>
    simp [validateSegmentsFrom, Segment.lastOffset, hP.invalid, hP.overflow, ih]

theorem validatePageRef_failsWith (r : PageRef) : FailsWith P (self.validatePageRef r) := by
  simp [validatePageRef, hP.invalid]

theorem validateChildrenFrom_failsWith (level : Nat) (children : List PageRef) (next : Int)
    (count : Nat) (objects : List String) :
    FailsWith P (self.validateChildrenFrom level children next count objects) := by
  induction children generalizing next count objects with
  | nil => simp [validateChildrenFrom]
  | cons child children ih =>
    simp [validateChildrenFrom, self.validatePageRef_failsWith hP, hP.invalid, hP.overflow, ih]

theorem validateChildren_failsWith (children : List PageRef) :
    FailsWith P (self.validateChildren children) := by
  cases children with
  | nil => simp [validateChildren, hP.invalid]
  | cons first children =>
    simp [validateChildren, self.validateChildrenFrom_failsWith hP, hP.invalid]

theorem newPageBounds_failsWith (page : Page) : FailsWith P (self.newPageBounds page) := by
  rcases page with (_ | ⟨first, segments⟩) | children
  · simp [newPageBounds, hP.invalid]
  · simp [newPageBounds, validateSegments, self.validateSegmentsFrom_failsWith hP]
  · exact self.validateChildren_failsWith hP children

theorem checkPage_failsWith (r : PageRef) (page : Page) : FailsWith P (self.checkPage r page) := by
  cases page with
  | leaf segments =>
    simp [checkPage, readPageBounds, validateSegments, self.validateSegmentsFrom_failsWith hP,
      hP.invalid]
  | branch children =>
    simp [checkPage, readPageBounds, self.validateChildren_failsWith hP, hP.invalid]

theorem parsePage_failsWith (body : Body) : FailsWith P (self.parsePage body) := by
  unfold parsePage
  split
  · split <;> simp [hP.invalid]
  · split <;> simp [hP.invalid]
  · simp [hP.invalid]

theorem collectBounded_failsWith (result : GetResult Body) (maximum : Nat)
    {f : BoundedReadError → LogError} (hstore : ∀ e, f (.store e) = .objectStore e)
    (hlarge : P (f .tooLarge)) :
    FailsWith P ((self.crates.collectBounded result maximum).mapError f) := by
  simp only [failsWith_mapError_iff]
  rintro (e | _) -
  · exact hstore e ▸ hP.store e
  · exact hlarge

theorem acceptPage_failsWith (r : PageRef) (result : GetResult Body) :
    FailsWith P (self.acceptPage r result) := by
  unfold acceptPage
  refine failsWith_bind (by simp [hP.invalid]) fun _ _ => ?_
  refine failsWith_bind (self.collectBounded_failsWith hP _ _ (fun _ => rfl) (hP.invalid _))
    fun body _ => ?_
  refine failsWith_bind (by simp [hP.invalid]) fun _ _ => ?_
  refine failsWith_bind (self.parsePage_failsWith hP body) fun page _ => ?_
  split
  · simp
  · rename_i e he
    exact failsWith_error (self.checkPage_failsWith hP r page e he)

theorem validateManifest_failsWith (m : Manifest) : FailsWith P (self.validateManifest m) := by
  simp [validateManifest, validateSegments, self.validateSegmentsFrom_failsWith hP, hP.invalid]

theorem validateProducerRef_failsWith (r : ProducerRef) :
    FailsWith P (self.validateProducerRef r) := by
  simp [validateProducerRef, hP.invalid]

theorem validateRoot_failsWith (root : Root) : FailsWith P (self.validateRoot root) := by
  have hproducers : FailsWith P (self.validateRootProducers root) := by
    unfold validateRootProducers
    split
    · exact self.validateProducerRef_failsWith hP _
    · simp
  have htree : FailsWith P (self.validateRootTree root) := by
    unfold validateRootTree
    split
    · simp [self.validatePageRef_failsWith hP, hP.invalid]
    · simp
  simp [validateRoot, validateSegments, self.validateSegmentsFrom_failsWith hP, hproducers, htree,
    hP.invalid]

theorem acceptManifest_failsWith (result : GetResult Body) :
    FailsWith P (self.acceptManifest result) := by
  unfold acceptManifest
  refine failsWith_bind (by simp [hP.invalid]) fun _ _ => ?_
  refine failsWith_bind (self.collectBounded_failsWith hP _ _ (fun _ => rfl) (hP.invalid _))
    fun body _ => ?_
  refine failsWith_bind ?_ fun _ _ => by simp
  unfold parseManifest
  split
  · split
    · simp [self.validateManifest_failsWith hP]
    · split <;> simp [hP.invalid]
  · split
    · simp [self.validateRoot_failsWith hP]
    · split <;> simp [hP.invalid]
  · simp [hP.invalid]

theorem parseTopicMetadata_failsWith (result : GetResult Body) :
    FailsWith P (self.parseTopicMetadata result) := by
  unfold parseTopicMetadata
  refine failsWith_bind (by simp [hP.metadata]) fun _ _ => ?_
  refine failsWith_bind (self.collectBounded_failsWith hP _ _ (fun _ => rfl) (hP.metadata _))
    fun body _ => ?_
  split
  · simp only [TopicMetadata.validate, validatePartitionCount]
    refine failsWith_bind (failsWith_bind (by simp [hP.metadata]) fun _ _ => ?_) fun _ _ => by simp
    split <;> simp [hP.metadata]
  · exact failsWith_error (hP.metadata _)

/-! ## Checks of producer pages -/

omit hP in
theorem producerBatches_failsWith (hP : Mundane P) (nextOffset : Int)
    (previous : Option BatchIdentity) (batches : List BatchIdentity) :
    FailsWith P (ProducerState.validateBatches nextOffset previous batches) := by
  induction batches generalizing previous with
  | nil => simp [ProducerState.validateBatches]
  | cons batch batches ih =>
    simp only [ProducerState.validateBatches, failsWith_bind_iff, failsWith_rejectIf_iff]
    exact ⟨fun _ => hP.invalid _, fun _ _ => ih _⟩

theorem validateStates_failsWith (nextOffset : Int) (producers : List ProducerState) :
    FailsWith P (validateStates nextOffset producers) := by
  induction producers with
  | nil => simp [validateStates]
  | cons p producers ih =>
    simp only [validateStates, ProducerState.validate, failsWith_bind_iff, failsWith_rejectIf_iff]
    exact ⟨⟨fun _ => hP.invalid _, fun _ _ => producerBatches_failsWith hP _ _ _⟩, fun _ _ => ih⟩

theorem validateProducerChildren_failsWith (level : Nat) (children : List ProducerRef)
    (count : Nat) : FailsWith P (self.validateProducerChildren level children count) := by
  induction children generalizing count with
  | nil => simp [validateProducerChildren]
  | cons child children ih =>
    simp [validateProducerChildren, self.validateProducerRef_failsWith hP, hP.invalid, ih]

theorem producerPageBounds_failsWith (nextOffset : Int) (page : ProducerPage) :
    FailsWith P (self.producerPageBounds nextOffset page) := by
  cases page with
  | leaf producers =>
    simp only [producerPageBounds, failsWith_bind_iff, failsWith_rejectIf_iff]
    refine ⟨fun _ => hP.invalid _, fun _ _ => ⟨validateStates_failsWith hP _ _,
      fun _ _ => ⟨fun _ => hP.invalid _, fun _ _ => ?_⟩⟩⟩
    split
    · simp
    · exact failsWith_error (hP.invalid _)
  | branch children =>
    simp only [producerPageBounds, failsWith_bind_iff, failsWith_rejectIf_iff]
    refine ⟨fun _ => hP.invalid _, fun _ _ => ?_⟩
    split
    · simp only [failsWith_bind_iff, failsWith_rejectIf_iff, failsWith_pure_iff]
      exact ⟨self.validateProducerChildren_failsWith hP _ _ _, fun _ _ => ⟨fun _ => hP.invalid _,
        fun _ _ => trivial⟩⟩
    · exact failsWith_error (hP.invalid _)

theorem acceptProducerPage_failsWith (nextOffset : Int) (r : ProducerRef)
    (result : GetResult Body) : FailsWith P (self.acceptProducerPage nextOffset r result) := by
  unfold acceptProducerPage
  refine failsWith_bind (by simp [hP.invalid]) fun _ _ => ?_
  refine failsWith_bind (self.collectBounded_failsWith hP _ _ (fun _ => rfl) (hP.invalid _))
    fun body _ => ?_
  refine failsWith_bind (by simp [hP.invalid]) fun _ _ => ?_
  refine failsWith_bind ?_ fun page _ => ?_
  · unfold parseProducerPage
    split
    · split <;> simp [hP.invalid]
    · split <;> simp [hP.invalid]
    · simp [hP.invalid]
  split
  · simp
  · rename_i e he
    have hcheck : FailsWith P (self.checkProducerPage nextOffset r page) := by
      simp [checkProducerPage, self.producerPageBounds_failsWith hP, hP.invalid]
    exact failsWith_error (hcheck e he)

/-! ## Documents -/

theorem loadManifestOf_obeys (hget : ∀ path, φ (.get path)) (partition : Int) :
    Obeys φ P (self.loadManifestOf partition) := by
  unfold loadManifestOf
  refine obeys_ask (hget _) fun answer => ?_
  split
  · exact obeys_bind (obeys_check (acceptManifest_failsWith _ hP _)) fun _ => obeys_pure
  · exact obeys_pure
  · exact obeys_throw (hP.store _)

theorem loadTopicMetadata_obeys (hget : ∀ path, φ (.get path)) :
    Obeys φ P self.loadTopicMetadata := by
  unfold loadTopicMetadata
  refine obeys_ask (hget _) fun answer => ?_
  split
  · exact obeys_bind (obeys_check (self.parseTopicMetadata_failsWith hP _)) fun _ => obeys_pure
  · exact obeys_pure
  · exact obeys_throw (hP.store _)

theorem staleMissing_obeys (hget : ∀ path, φ (.get path)) (version : Option UpdateVersion)
    (error : LogError) : Obeys φ P (self.staleMissing version error) := by
  unfold staleMissing
  split
  · exact obeys_bind (self.loadManifestOf_obeys hP hget _) fun _ => obeys_pure
  · exact obeys_pure

theorem readPage_obeys (hget : ∀ path, φ (.get path)) (r : PageRef) :
    Obeys φ P (self.readPage r) := by
  unfold readPage
  refine obeys_bind (obeys_check (self.validatePageRef_failsWith hP r)) fun _ => ?_
  refine obeys_ask (hget _) fun answer => obeys_orStore hP.store fun result => ?_
  exact obeys_check (self.acceptPage_failsWith hP r result)

theorem writePage_obeys (hφ : self.Grants φ) (page : Page) :
    Obeys φ P (self.writePage page) := by
  unfold writePage
  refine obeys_bind (obeys_check (self.newPageBounds_failsWith hP page)) fun bounds => ?_
  dsimp only
  split
  · exact obeys_throw (hP.invalid _)
  refine obeys_ask hφ.newV4 fun id => ?_
  refine obeys_bind (obeys_check (self.validatePageRef_failsWith hP _)) fun _ => ?_
  refine obeys_ask (hφ.create _ _ ⟨id, self.indexPath_mem id⟩) fun answer => obeys_orStore hP.store fun _ => ?_
  exact obeys_pure

theorem readProducerPage_obeys (hget : ∀ path, φ (.get path)) (r : ProducerRef)
    (nextOffset : Int) : Obeys φ P (self.readProducerPage r nextOffset) := by
  unfold readProducerPage
  refine obeys_bind (obeys_check (self.validateProducerRef_failsWith hP r)) fun _ => ?_
  refine obeys_ask (hget _) fun answer => obeys_orStore hP.store fun result => ?_
  exact obeys_check (self.acceptProducerPage_failsWith hP nextOffset r result)

theorem writeProducerPage_obeys (hφ : self.Grants φ) (page : ProducerPage)
    (nextOffset : Int) : Obeys φ P (self.writeProducerPage page nextOffset) := by
  unfold writeProducerPage
  refine obeys_bind (obeys_check (self.producerPageBounds_failsWith hP nextOffset page))
    fun bounds => ?_
  refine obeys_ask hφ.newV4 fun id => ?_
  refine obeys_bind (obeys_check (self.validateProducerRef_failsWith hP _)) fun _ => ?_
  refine obeys_ask (hφ.create _ _ ⟨id, self.producerPath_mem id⟩) fun answer =>
    obeys_orStore hP.store fun _ => ?_
  exact obeys_pure

/-! ## Traces and rebuilds -/

section Budgets

variable {maximum : Nat} (hbudget : P (.maintenanceBudget maximum))

include hbudget

omit hP in
theorem insert_failsWith (hP : Mundane P) (graph : LiveGraph) (object : String) :
    FailsWith P (graph.insert object maximum) := by
  simp [LiveGraph.insert, hbudget, hP.invalid]

theorem traceIndexLoop_obeys (hget : ∀ path, φ (.get path)) (stack : List PageRef)
    (graph : LiveGraph) : Obeys φ P (self.traceIndexLoop maximum stack graph) := by
  induction hweight : stackWeight (stack.map (·.level)) using Nat.strong_induction_on
    generalizing stack graph with
  | _ weight ih =>
  subst hweight
  cases stack with
  | nil =>
    rw [traceIndexLoop]
    exact obeys_pure
  | cons r stack =>
    rw [traceIndexLoop]
    refine obeys_bind (obeys_check (insert_failsWith hbudget hP _ _)) fun graph => ?_
    refine obeys_bind (self.readPage_obeys hP hget r) ?_
    -- a leaf is the end of a way, and a branch goes on with its children
    rintro ⟨segments | children, hpage⟩
    · dsimp only
      split
      · exact obeys_throw hbudget
      · exact ih _ (stackWeight_lt_cons r.level _) stack _ rfl
    · have hlt := stackWeight_children (self.checkPage_levels hpage).1
        (self.checkPage_levels hpage).2
      refine ih _ ?_ (children ++ stack) _ rfl
      rw [List.map_append, stackWeight_append, List.map_cons, stackWeight_cons]
      omega

theorem traceProducersLoop_obeys (hget : ∀ path, φ (.get path)) (nextOffset : Int)
    (pending : List ProducerRef) (graph : LiveGraph) :
    Obeys φ P (self.traceProducersLoop maximum nextOffset pending graph) := by
  induction hweight : stackWeight (pending.map (·.level)) using Nat.strong_induction_on
    generalizing pending graph with
  | _ weight ih =>
  subst hweight
  cases pending with
  | nil =>
    rw [traceProducersLoop]
    exact obeys_pure
  | cons r pending =>
    rw [traceProducersLoop]
    refine obeys_bind (obeys_check (insert_failsWith hbudget hP _ _)) fun graph => ?_
    refine obeys_bind (self.readProducerPage_obeys hP hget r nextOffset) ?_
    -- a leaf is the end of a way, and a branch goes on with its children
    rintro ⟨producers | children, hpage⟩
    · exact ih _ (stackWeight_lt_cons r.level _) pending _ rfl
    · have hlt := stackWeight_children (self.checkProducerPage_levels hpage).1
        (self.checkProducerPage_levels hpage).2
      refine ih _ ?_ (children.reverse ++ pending) _ rfl
      rw [List.map_append, stackWeight_append, List.map_cons, stackWeight_cons]
      omega

theorem traceSegments_obeys (hhead : ∀ path, φ (.head path)) (segments : List Segment)
    (graph : LiveGraph) : Obeys φ P (self.traceSegments maximum segments graph) := by
  induction segments generalizing graph with
  | nil => exact obeys_pure
  | cons s segments ih =>
    unfold traceSegments
    dsimp only
    split
    · exact obeys_throw_bind hbudget
    split
    · exact obeys_throw_bind (hP.invalid _)
    refine obeys_ask (hhead _) fun answer => obeys_orStore hP.store fun size => ?_
    split
    · exact obeys_throw_bind (hP.invalid _)
    · exact ih _

theorem traceManifest_obeys (hget : ∀ path, φ (.get path)) (hhead : ∀ path, φ (.head path))
    (manifest : LogManifest) : Obeys φ P (self.traceManifest manifest maximum) := by
  cases manifest with
  | legacy m => exact self.traceSegments_obeys hP hbudget hhead _ _
  | indexed root =>
    refine obeys_bind ?_ fun graph =>
      obeys_bind (self.traceProducersLoop_obeys hP hbudget hget _ _ _) fun graph =>
        self.traceSegments_obeys hP hbudget hhead _ _
    unfold traceIndex
    refine obeys_bind (self.traceIndexLoop_obeys hP hbudget hget _ _) fun graph => ?_
    split
    · exact obeys_throw hbudget
    · exact obeys_pure

omit hP in
theorem scanListing_failsWith (hstore : ∀ e, P (.objectStore e)) (space suffix : String)
    (listed : List (Except StoreError ObjectMeta)) (scanned : Nat) (objects : Inventory) :
    FailsWith P (self.scanListing space suffix maximum listed scanned objects) := by
  induction listed generalizing scanned objects with
  | nil => simp [scanListing]
  | cons item listed ih =>
    cases item with
    | error e => simp [scanListing, hstore]
    | ok object => simp [scanListing, hbudget, ih]

theorem inventory_obeys (hlist : ∀ directory, φ (.list directory)) :
    Obeys φ P (self.inventory maximum) := by
  have hloop : ∀ (directories : List (String × String)) (scanned : Nat) (objects : Inventory),
      Obeys φ P (self.inventoryOf maximum directories scanned objects) := by
    intro directories
    induction directories with
    | nil => exact fun _ _ => obeys_pure
    | cons entry directories ih =>
      intro scanned objects
      unfold inventoryOf
      refine obeys_ask (hlist _) fun listed => ?_
      exact obeys_bind (obeys_check (self.scanListing_failsWith hbudget hP.store _ _ _ _ _))
        fun _ => ih _ _
  exact hloop _ _ _

omit hP in
theorem countPages_failsWith (levelCount count : Nat) :
    FailsWith P (countPages levelCount count maximum) := by
  induction hlevel : levelCount using Nat.strong_induction_on generalizing levelCount count with
  | _ level ih =>
  subst hlevel
  rw [countPages]
  split
  · simp
  · refine failsWith_bind (by simp [hbudget]) fun count' _ => ?_
    split
    · simp
    · refine ih _ ?_ _ _ rfl
      simp only [pageEntries]
      omega

omit hbudget in
theorem writePages_obeys (hφ : self.Grants φ) (pages : List Page) :
    Obeys φ P (self.writePages pages) := by
  induction pages with
  | nil => exact obeys_pure
  | cons page pages ih =>
    unfold writePages
    refine obeys_bind (self.writePage_obeys hP hφ page) fun reference => ?_
    exact obeys_bind ih fun references => obeys_pure

omit hbudget in
theorem writeBranches_obeys (hφ : self.Grants φ) (pages : List PageRef) :
    Obeys φ P (self.writeBranches pages) := by
  induction hlength : pages.length using Nat.strong_induction_on generalizing pages with
  | _ length ih =>
  subst hlength
  rw [writeBranches]
  split
  · rename_i hmany
    refine obeys_bind (self.writePages_obeys hP hφ _) fun parents => ?_
    obtain ⟨parents, hparents⟩ := parents
    refine ih _ ?_ parents rfl
    rw [hparents, List.length_map]
    exact length_chunks_lt hmany
  · exact obeys_pure

theorem rebuildIndex_obeys (hφ : self.Grants φ) (segments : List Segment)
    (startOffset nextOffset : Int) :
    Obeys φ P (self.rebuildIndex segments startOffset nextOffset maximum) := by
  unfold rebuildIndex
  refine obeys_bind (obeys_check (countPages_failsWith hbudget _ _)) fun count => ?_
  dsimp only
  split
  · exact obeys_throw hbudget
  refine obeys_bind (self.writePages_obeys hP hφ _) fun leaves => ?_
  exact obeys_bind (self.writeBranches_obeys hP hφ _) fun pages => obeys_pure

theorem maintenanceRoot_obeys (hφ : self.Grants φ) (hrevision : P .revisionOverflow)
    (manifest : LogManifest) (plan : RetentionPlan) :
    Obeys φ P (self.maintenanceRoot manifest plan maximum) := by
  unfold maintenanceRoot
  refine obeys_bind ?_ fun index => ?_
  · unfold retainedIndex
    split
    · exact self.rebuildIndex_obeys hP hbudget hφ _ _ _
    · cases manifest <;> exact obeys_pure
  refine obeys_bind (obeys_check (by simp [hrevision])) fun revision => ?_
  refine obeys_bind (obeys_check (self.validateRoot_failsWith hP _)) fun _ => ?_
  dsimp only
  split
  · exact obeys_throw_bind (hP.invalid _)
  · exact obeys_pure

end Budgets

end PartitionLog

end Walstream.Log

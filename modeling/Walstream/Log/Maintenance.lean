import Walstream.Log.Engine

/-!
# Maintenance

`maintenance.rs`: retention of a suffix of the log and collection of the objects that the
published root does not reach. The inventory of a pass is complete before the pass loads
the manifest it will replace; only its unreachable names can be deleted, and only after
the replacement was published and traced completely.
-/

namespace Walstream.Log

open Interaction

/-- `MaintenanceOptions::validate`. -/
def MaintenanceOptions.validate (options : MaintenanceOptions) : Except LogError Unit :=
  rejectIf (¬ (1 ≤ options.maxObjects ∧ options.maxObjects ≤ 1000000))
    (.invalidMaintenance "max-objects must be between 1 and 1000000")

/-- `incomplete`. -/
def incomplete (report : MaintenanceReport) (source : LogError) : LogError :=
  .maintenanceIncomplete report source

/-! ## Inventory -/

/-- The names that a pass may delete, with their sizes, in increasing order
(`BTreeMap<String, u64>`). -/
abbrev Inventory := List (String × Nat)

/-- `BTreeMap::insert`. -/
def Inventory.insert (key : String) (size : Nat) : Inventory → Inventory
  | [] => [(key, size)]
  | (k, n) :: rest =>
    if k < key then (k, n) :: Inventory.insert key size rest
    else if k = key then (key, size) :: rest
    else (key, size) :: (k, n) :: rest

namespace PartitionLog

variable (self : PartitionLog)

/-- The loop over one listing: the number of entries scanned so far and the inventory. -/
def scanListing (space suffix : String) (maximum : Nat) :
    List (Except StoreError ObjectMeta) → Nat → Inventory → Except LogError (Nat × Inventory)
  | [], scanned, objects => .ok (scanned, objects)
  | .error e :: _, _, _ => .error (.objectStore e)
  | .ok object :: listed, scanned, objects => do
    rejectIf (scanned + 1 > maximum) (.maintenanceBudget maximum)
    let objects := if self.crates.namesUuid space suffix object.location = true then
        objects.insert object.location object.size
      else objects
    scanListing space suffix maximum listed (scanned + 1) objects

/-- The directories of the partition that hold its objects, with their names' suffix. -/
def collectedDirectories : List (String × String) :=
  [("segments", ".batch"), ("index", ".json"), ("producer-state", ".json")]

/-- The loop over the directories. -/
def inventoryOf (maximum : Nat) :
    List (String × String) → Nat → Inventory → Engine Inventory
  | [], _, objects => pure objects
  | (directory, suffix) :: directories, scanned, objects => do
    let path := partitionPath self.keyPrefix self.topic self.partition ++ directory
    let listed ← Engine.perform (.list path)
    let (scanned, objects) ← Engine.check
      (self.scanListing (path ++ "/") suffix maximum listed scanned objects)
    inventoryOf maximum directories scanned objects

/-- `inventory`. -/
def inventory (maximum : Nat) : Engine Inventory :=
  self.inventoryOf maximum collectedDirectories 0 []

/-! ## Tracing -/

/-- The loop over the segments of `trace_manifest`. -/
def traceSegments (maximum : Nat) : List Segment → LiveGraph → Engine LiveGraph
  | [], graph => pure graph
  | segment :: segments, graph => do
    -- the budget is spent before the object is looked at
    if graph.objects.length ≥ maximum then throw (.maintenanceBudget maximum)
    if segment.object ∈ graph.objects then throw (invalid "duplicate live record object")
    let graph := { graph with objects := segment.object :: graph.objects }
    let size ← Engine.orStore (← Engine.perform (.head (self.crates.pathFrom segment.object)))
    if size ≠ segment.byteLength then throw (invalid "live record object length mismatch")
    traceSegments maximum segments graph

/-- `trace_manifest`. -/
def traceManifest (manifest : LogManifest) (maximum : Nat) : Engine LiveGraph := do
  let graph ← match manifest with
    | .legacy legacy => pure ⟨legacy.segments, []⟩
    | .indexed root => do
      -- the pages of the index, and then those of the directory
      let graph ← self.traceIndex root ⟨[], []⟩ maximum
      self.traceProducers root graph maximum
  self.traceSegments maximum graph.segments graph

/-! ## The plan -/

/-- The segment was received at least `max_age_ms` ago. -/
def ageExpired (options : MaintenanceOptions) (adoption nowMs : Nat) (segment : Segment) : Bool :=
  match options.maxAgeMs with
  | none => false
  | some age =>
    -- an expiry that overflows is never reached
    match checkedAddU64 (segment.receivedAtMs.getD adoption) age with
    | some expires => decide (expires ≤ nowMs)
    | none => false

/-- More bytes are retained than the limit allows. -/
def sizeExpired (options : MaintenanceOptions) (retainedBytes : Nat) : Bool :=
  match options.maxBytes with
  | some limit => decide (retainedBytes > limit)
  | none => false

/-- The expiry loop: how many segments expire, and the bytes of the others. -/
def expire (options : MaintenanceOptions) (adoption nowMs : Nat) :
    List Segment → Nat → Nat × Nat
  | [], retainedBytes => (0, retainedBytes)
  | segment :: segments, retainedBytes =>
    -- the first segment that is kept ends the expiry, whatever follows it
    if ageExpired options adoption nowMs segment = false ∧
        sizeExpired options retainedBytes = false then (0, retainedBytes)
    else
      let (expired, retainedBytes) :=
        expire options adoption nowMs segments (retainedBytes - segment.byteLength)
      (expired + 1, retainedBytes)

/-- `try_fold` with `checked_add` over the sizes of the removable objects. -/
def removableBytes : Inventory → Nat → Except LogError Nat
  | [], total => .ok total
  | (_, size) :: removable, total => do
    let total ← okOr (checkedAddU64 total size) .offsetOverflow
    removableBytes removable total

/-- What a pass has decided before it writes anything. -/
structure RetentionPlan where
  adoption : Nat
  retained : List Segment
  startOffset : Int
  rebuild : Bool
  removable : Inventory
  report : MaintenanceReport
  deriving DecidableEq, Repr

/-- The adoption time: that of the root, or now. -/
def adoptionTime (manifest : LogManifest) (nowMs : Nat) : Nat :=
  match manifest with
  | .legacy _ => nowMs
  | .indexed root => root.adoptedAtMs.getD nowMs

/-- The manifest is of an older schema than the one to be published. -/
def adoptsFormat (manifest : LogManifest) : Bool :=
  match manifest with
  | .legacy _ => true
  | .indexed root => decide (root.schema ≠ indexSchema)

/-- The part of `maintain_attempts` between the trace and the first write. -/
def planRetention (options : MaintenanceOptions) (nowMs : Nat) (inventory : Inventory)
    (manifest : LogManifest) (graph : LiveGraph) : Except LogError RetentionPlan := do
  let adoption := adoptionTime manifest nowMs
  let totalBytes := (graph.segments.map (·.byteLength)).sum
  let (expired, retainedBytes) := expire options adoption nowMs graph.segments totalBytes
  -- with nothing retained the log starts where it ends
  let startOffset := (graph.segments[expired]?.map (·.baseOffset)).getD manifest.nextOffset
  let retained := graph.segments.drop expired
  -- a legacy manifest has no index that could be kept
  let rebuild := decide (expired ≠ 0) || match manifest with
    | .legacy _ => true
    | .indexed _ => false
  -- of the old pages only those of the directory stay in use
  let plannedLive := if rebuild then
      retained.map (·.object) ++ graph.objects.filter fun key =>
        startsWith key (producerNamespace self.keyPrefix self.topic self.partition)
    else graph.objects
  let removable := inventory.filter fun entry => entry.1 ∉ plannedLive
  let bytes ← removableBytes removable 0
  return {
    adoption := adoption
    retained := retained
    startOffset := startOffset
    rebuild := rebuild
    removable := removable
    report := {
      topic := self.topic
      partition := self.partition
      applied := false
      publicationUncertain := false
      previousStartOffset := manifest.startOffset
      startOffset := startOffset
      nextOffset := manifest.nextOffset
      maxAgeMs := options.maxAgeMs
      maxBytes := options.maxBytes
      formatAdoption := adoptsFormat manifest
      retainedBatches := retained.length
      retainedRecordBytes := retainedBytes
      expiredBatches := expired
      expiredRecordBytes := totalBytes - retainedBytes
      removableObjects := removable.length
      removableBytes := bytes
      collectedObjects := 0
      collectedBytes := 0 } }

/-! ## Publication and collection -/

/-- The index of the root to be published: a new one, or that of the loaded root. -/
def retainedIndex (manifest : LogManifest) (plan : RetentionPlan) (maximum : Nat) : Engine Root :=
  if plan.rebuild then
    self.rebuildIndex plan.retained plan.startOffset manifest.nextOffset maximum
  else match manifest with
    | .indexed root => pure root
    -- `unreachable!()`: the index of a legacy manifest is always rebuilt
    | .legacy _ => pure Root.empty

/-- The root that a pass publishes. -/
def maintenanceRoot (manifest : LogManifest) (plan : RetentionPlan) (maximum : Nat) :
    Engine Root := do
  let root ← self.retainedIndex manifest plan maximum
  let revision ← Engine.check (okOr (checkedAddU64 manifest.revision 1) .revisionOverflow)
  let root := { root with
    producers := manifest.producers
    schema := indexSchema
    adoptedAtMs := some plan.adoption
    revision := revision }
  Engine.check (self.validateRoot root)
  -- the root with its tail may be too large for a manifest
  if self.crates.size (.manifest (.indexed root)) > maxManifestBytes then
    throw (invalid "maintenance root exceeds byte limit")
  return root

/-- Delete the removable objects that are not live. -/
def collect (live : LiveGraph) : Inventory → MaintenanceReport → Engine MaintenanceReport
  | [], report => pure report
  | (object, size) :: removable, report =>
    -- what the new root reaches is kept
    if object ∈ live.objects then collect live removable report
    else do
      match ← Engine.perform (.delete (self.crates.pathFrom object)) with
      -- an object that is gone already counts as collected
      | .ok () | .error .notFound =>
        collect live removable { report with
          collectedObjects := report.collectedObjects + 1
          collectedBytes := report.collectedBytes + size }
      | .error e => throw (incomplete report (.objectStore e))

/-- How a pass ended. -/
inductive Pass where
  | finished (report : MaintenanceReport)
  /-- `continue`, with the report of the root the pass has published. -/
  | retry (published : Option MaintenanceReport)
  deriving DecidableEq, Repr

/-- The pass after its root was published as `version`: trace it, then collect. -/
def collectPublished (root : Root) (version : UpdateVersion) (plan : RetentionPlan)
    (maximum : Nat) : Engine Pass := do
  let report := { plan.report with applied := true }
  match ← attempt (self.traceManifest (.indexed root) maximum) with
  | .ok live => return .finished (← self.collect live plan.removable report)
  | .error error =>
    -- somebody may have published again, and collected what this root reaches
    match ← attempt (self.staleMissing (some version) error) with
    | .ok true => return .retry (some report)
    | .ok false => throw (incomplete report error)
    | .error error => throw (incomplete report error)

/-- One turn of the loop of `maintain_attempts`. -/
def maintainPass (options : MaintenanceOptions) (nowMs : Nat) : Engine Pass := do
  let inventory ← self.inventory options.maxObjects
  let loaded := (← self.loadManifest).getD LoadedManifest.empty
  match ← attempt (self.traceManifest loaded.manifest options.maxObjects) with
  | .error error =>
    -- an object is missing from a manifest that was replaced
    if ← self.staleMissing loaded.version error then return .retry none
    else throw error
  | .ok graph =>
    let plan ← Engine.check (self.planRetention options nowMs inventory loaded.manifest graph)
    if options.apply = false then return .finished plan.report
    let root ← self.maintenanceRoot loaded.manifest plan options.maxObjects
    match ← Engine.perform
        (.put self.manifestPath (.manifest (.indexed root)) loaded.mode) with
    | .ok version => self.collectPublished root version plan options.maxObjects
    -- somebody else has published, and this root was not
    | .error .precondition | .error .alreadyExists => return .retry none
    -- whether the root was published is not known
    | .error e =>
      throw (incomplete { plan.report with publicationUncertain := true } (.objectStore e))

/-- `maintain_attempts`: its result and the report of the last root it has published. -/
def maintainAttempts (options : MaintenanceOptions) (nowMs : Nat) :
    Nat → Option MaintenanceReport →
      Engine (Except LogError MaintenanceReport × Option MaintenanceReport)
  | 0, lastPublication => return (.error (.contentionExhausted maxCasAttempts), lastPublication)
  | attempts + 1, lastPublication => do
    match ← attempt (self.maintainPass options nowMs) with
    | .ok (.finished report) => return (.ok report, lastPublication)
    -- a publication is remembered for an error of a later pass
    | .ok (.retry published) =>
      maintainAttempts options nowMs attempts (published.or lastPublication)
    | .error error => return (.error error, lastPublication)

/-- `maintain_at`. -/
def maintainAt (options : MaintenanceOptions) (nowMs : Nat) : Engine MaintenanceReport := do
  match ← self.maintainAttempts options nowMs maxCasAttempts none with
  | (.error (.maintenanceIncomplete report source), _) =>
    throw (.maintenanceIncomplete report source)
  | (.error error, some report) => throw (incomplete report error)
  | (.error error, none) => throw error
  | (.ok report, _) => return report

/-- `maintain`. -/
def maintain (options : MaintenanceOptions) (clock : Option Nat) : Engine MaintenanceReport := do
  Engine.check options.validate
  Engine.check (validateTopic self.topic)
  Engine.check (validatePartition self.partition maxTopicPartitions)
  self.requirePartition
  self.maintainAt options (← Engine.check (unixMillis clock))

end PartitionLog

end Walstream.Log

import Walstream.Log.Producer

/-!
# Appending and reading

`log.rs`: topic metadata, the append loop, bounded fetches. Appends first create immutable
objects and then make them visible by one conditional write of the manifest.
-/

namespace Walstream.Log

open Interaction

/-- `unix_millis`, given the reading of the clock (`None`: outside the range of `u64`
milliseconds since the epoch). -/
def unixMillis (clock : Option Nat) : Except LogError Nat :=
  okOr clock (invalid "broker clock is outside the supported Unix millisecond range")

structure LoadedManifest where
  manifest : LogManifest
  version : Option UpdateVersion
  deriving DecidableEq, Repr

/-- `LoadedManifest::empty`. -/
def LoadedManifest.empty : LoadedManifest := ⟨.indexed Root.empty, none⟩

/-- `loaded.version.map_or(PutMode::Create, PutMode::Update)`. -/
def LoadedManifest.mode (loaded : LoadedManifest) : PutMode Body :=
  match loaded.version with
  | none => .create
  | some version => .update version

/-- The error is a `NotFound` of the store. -/
def LogError.isMissing : LogError → Bool
  | .objectStore .notFound => true
  | .missingSegment _ .notFound => true
  | _ => false

/-- `TopicMetadata::validate`. -/
def TopicMetadata.validate (m : TopicMetadata) : Except LogError Unit := do
  rejectIf (m.schema ≠ topicMetadataSchema)
    (.invalidTopicMetadata ("unsupported schema " ++ toString m.schema))
  validatePartitionCount m.partitionCount

namespace PartitionLog

variable (self : PartitionLog)

/-! ## Loading -/

/-- The topic metadata that an object's body holds. -/
def parseTopicMetadata (result : GetResult Body) : Except LogError TopicMetadata := do
  rejectIf (result.size > maxTopicMetadataBytes)
    (.invalidTopicMetadata ("topic metadata is " ++ toString result.size ++
      " bytes; maximum is " ++ toString maxTopicMetadataBytes))
  let body ← (self.crates.collectBounded result maxTopicMetadataBytes).mapError fun
    | .store source => .objectStore source
    | .tooLarge => .invalidTopicMetadata
        ("topic metadata body exceeds " ++ toString maxTopicMetadataBytes ++ " bytes")
  match body with
  | .metadata m => do
    m.validate
    return m
  | body => throw (.invalidTopicMetadata (self.crates.jsonError body))

/-- `load_topic_metadata`. -/
def loadTopicMetadata : Engine (Option TopicMetadata) := do
  match ← Engine.perform (.get self.topicMetadataPath) with
  | .ok result => return some (← Engine.check (self.parseTopicMetadata result))
  | .error .notFound => return none
  | .error e => throw (.objectStore e)

/-- The manifest that a body holds, after its checks. -/
def parseManifest (body : Body) : Except LogError LogManifest :=
  match body with
  | .manifest (.legacy m) =>
    -- a flat manifest of the first schema
    if m.schema = manifestSchema ∧ m.segments.length ≤ maxManifestSegments then do
      self.validateManifest m
      return .legacy m
    -- a schema that is known, in a document that does not belong to it
    else if m.schema = manifestSchema ∨ m.schema = 2 ∨ m.schema = 3 ∨ m.schema = indexSchema then
      .error (invalid (self.crates.jsonError body))
    else .error (invalid ("unsupported manifest schema " ++ toString m.schema))
  | .manifest (.indexed root) =>
    if (root.schema = 2 ∨ root.schema = 3 ∨ root.schema = indexSchema) ∧
        root.tail.length ≤ pageEntries then do
      self.validateRoot root
      return .indexed root
    -- the same for an indexed one
    else if root.schema = manifestSchema ∨ root.schema = 2 ∨ root.schema = 3 ∨
        root.schema = indexSchema then
      .error (invalid (self.crates.jsonError body))
    else .error (invalid ("unsupported manifest schema " ++ toString root.schema))
  | body => .error (invalid (self.crates.jsonError body))

/-- The body of `load_manifest` after the GET. -/
def acceptManifest (result : GetResult Body) : Except LogError LoadedManifest := do
  rejectIf (result.size > maxManifestBytes)
    (invalid ("manifest is " ++ toString result.size ++ " bytes; maximum is " ++
      toString maxManifestBytes))
  let body ← (self.crates.collectBounded result maxManifestBytes).mapError fun
    | .store source => .objectStore source
    | .tooLarge => invalid ("manifest body exceeds " ++ toString maxManifestBytes ++ " bytes")
  return ⟨← self.parseManifest body, some result.version⟩

/-- `load_manifest` of a partition of the topic. -/
def loadManifestOf (partition : Int) : Engine (Option LoadedManifest) := do
  match ← Engine.perform (.get (self.engine.manifestPath self.topic partition)) with
  | .ok result =>
    return some (← Engine.check (acceptManifest { self with partition := partition } result))
  | .error .notFound => return none
  | .error e => throw (.objectStore e)

/-- `load_manifest` of this partition. -/
def loadManifest : Engine (Option LoadedManifest) := self.loadManifestOf self.partition

/-- `stale_missing`. -/
def staleMissing (version : Option UpdateVersion) (error : LogError) : Engine Bool := do
  if error.isMissing then
    let current ← self.loadManifest
    return decide (current.bind (·.version) ≠ version)
  else return false

/-! ## Topics -/

/-- `create_topic_metadata`. -/
def createTopicMetadata (partitionCount : Int) : Engine Int := do
  let metadata : TopicMetadata := ⟨topicMetadataSchema, partitionCount⟩
  match ← Engine.perform (.put self.topicMetadataPath (.metadata metadata) .create) with
  | .ok _ => return partitionCount
  -- another client was first, and its metadata counts
  | .error .precondition | .error .alreadyExists =>
    match ← self.loadTopicMetadata with
    | some metadata => return metadata.partitionCount
    | none => throw (.unknownTopic self.topic)
  | .error e => throw (.objectStore e)

/-- `ensure_topic`, of an engine with this default. -/
def ensureTopic (defaultPartitions : PartitionCount) : Engine Int := do
  Engine.check (validateTopic self.topic)
  let partitionCount ← match ← self.loadTopicMetadata with
    | some metadata => pure metadata.partitionCount
    | none => do
      -- a partition 0 without metadata is older than the metadata of topics
      let partitionCount := match ← self.loadManifestOf 0 with
        | some _ => Log.defaultTopicPartitions
        | none => defaultPartitions.value
      Engine.check (validatePartition self.partition partitionCount)
      self.createTopicMetadata partitionCount
  Engine.check (validatePartition self.partition partitionCount)
  return partitionCount

/-- `topic_partition_count`. -/
def topicPartitionCount : Engine (Option Int) := do
  Engine.check (validateTopic self.topic)
  match ← self.loadTopicMetadata with
  | some metadata => return some metadata.partitionCount
  | none =>
    let manifest ← self.loadManifestOf 0
    return manifest.map fun _ => Log.defaultTopicPartitions

/-- `topic_exists`. -/
def topicExists : Engine Bool := do
  Engine.check (validateTopic self.topic)
  match ← self.topicPartitionCount with
  | none => return false
  | some partitionCount =>
    Engine.check (validatePartition self.partition partitionCount)
    return true

/-- The partition check of `fetch_bounded`, `offsets` and `maintain`. -/
def requirePartition : Engine Unit := do
  match ← self.topicPartitionCount with
  | none => throw (.unknownTopic self.topic)
  | some partitionCount => Engine.check (validatePartition self.partition partitionCount)

/-! ## Append -/

/-- The checks on one batch of a request: its encoded length and its fingerprint. -/
def inspectBatch (records : List Record) : Except LogError (Nat × String) := do
  validateRecords records
  validateTimestampSpan records
  -- encoded at offset 0, so that the fingerprint does not depend on where the batch goes
  let canonical ← assignedRecords records 0
  let encoded ← self.crates.encodeRecords canonical
  let inspection ← (self.crates.inspectRecordBatches encoded).mapError fun e => .codec e.toText
  rejectIf (inspection.batchCount ≠ 1 ∨ inspection.recordCount ≠ records.length)
    .unsupportedRecordSemantics
  return (encoded.length, self.crates.sha256Hex (.raw encoded))

/-- The checks of `append_batches` before the first request to the store: one fingerprint
for each batch. -/
def admitBatches (batches : List (List Record)) : Except LogError (List String) := do
  validateTopic self.topic
  validatePartition self.partition maxTopicPartitions
  rejectIf (batches = []) .emptyBatch
  let total := (batches.map List.length).sum
  rejectIf (total > maxBatchRecords) (.tooManyRecords total maxBatchRecords)
  let inspected ← batches.mapM self.inspectBatch
  let totalBytes := (inspected.map Prod.fst).sum
  rejectIf (totalBytes > maxBatchBytes) (.batchTooLarge totalBytes maxBatchBytes)
  return inspected.map Prod.snd

/-- What `prepare_append` has decided so far: the next offset, the private snapshots of
the producers of the request in the order of their ids, the batches to be added with their
base offsets, and the result of each batch. -/
structure Decision where
  nextOffset : Int
  states : List ProducerState
  additions : List (List Record × Int)
  results : List AppendResult
  deriving DecidableEq, Repr

/-- Take over the outcome for one batch. A batch is new when it was given the next
offset. -/
def Decision.record (d : Decision) (records : List Record) (states : List ProducerState)
    (result : AppendResult) : Decision :=
  -- a repeated batch has its original offset, which lies before the next one
  if result.baseOffset = d.nextOffset then
    ⟨result.lastOffset + 1, states, d.additions ++ [(records, result.baseOffset)],
      d.results ++ [result]⟩
  else ⟨d.nextOffset, states, d.additions, d.results ++ [result]⟩

/-- The outcome for a batch without a producer identity. -/
def anonymousResult (nextOffset : Int) (count : Nat) : Except LogError AppendResult := do
  let «end» ← okOr (checkedAddI64 nextOffset count) .offsetOverflow
  return ⟨nextOffset, «end» - 1⟩

/-- The state that a batch is judged against: the request's own snapshot of its producer,
else the stored state, else that of a new producer. -/
def producerSnapshot (directory : Option ProducerRef) (initialOffset : Int)
    (states : List ProducerState) (first : Record) : Engine ProducerState :=
  match states.find? (·.id = first.producerId) with
  | some state => pure state
  | none => do
    let known ← self.producerState directory first.producerId initialOffset
    return known.getD (ProducerState.new first.producerId first.producerEpoch)

/-- The decision on one batch of the request. -/
def decideBatch (directory : Option ProducerRef) (initialOffset : Int)
    (batch : List Record × String) (d : Decision) : Engine Decision := do
  match batch.1 with
  | [] => throw .emptyBatch
  | first :: _ =>
    let count := batch.1.length
    -- a batch of a producer is judged by its sequence
    if first.producerId ≥ 0 then
      let state ← self.producerSnapshot directory initialOffset d.states first
      let (state, result) ← Engine.check
        (state.accept first.producerEpoch first.sequence count batch.2 d.nextOffset)
      return d.record batch.1 (upsert state d.states) result
    -- any other batch is new
    else
      let result ← Engine.check (anonymousResult d.nextOffset count)
      return d.record batch.1 d.states result

/-- The decision phase of `prepare_append`: nothing is written in it. -/
def decideBatches (directory : Option ProducerRef) (initialOffset : Int) :
    List (List Record × String) → Decision → Engine Decision
  | [], d => pure d
  | batch :: batches, d => do
    let d ← self.decideBatch directory initialOffset batch d
    decideBatches directory initialOffset batches d

/-- The root that the new batches are added to, in the newest schema. -/
def adoptManifest (manifest : LogManifest) (nowMs : Nat) : Engine Root :=
  match manifest with
  | .legacy legacy => self.migrateManifest legacy nowMs
  | .indexed root =>
    -- an older root gets the newest schema, and an adoption time if it has none
    if root.schema ≠ indexSchema then
      pure { root with
        schema := indexSchema
        adoptedAtMs := some (root.adoptedAtMs.getD nowMs) }
    else pure root

/-- `append_root`. -/
def appendRoot (manifest : LogManifest) (nowMs : Nat) : Engine Root := do
  let root ← self.adoptManifest manifest nowMs
  self.sealFullTail root

/-- Create the record objects of the new batches and enter them into the root. -/
def appendAdditions (receivedAtMs : Nat) : List (List Record × Int) → Root → Engine Root
  | [], root => pure root
  | (records, baseOffset) :: additions, root => do
    -- a batch may find the tail full that the one before it has filled
    let root ← self.sealFullTail root
    let encoded ← Engine.check do
      self.crates.encodeRecords (← assignedRecords records baseOffset)
    let object := self.segmentPath (← Engine.perform .newV4)
    let revision ← Engine.check (okOr (checkedAddU64 root.revision 1) .revisionOverflow)
    let root := { root with
      revision := revision
      nextOffset := baseOffset + records.length
      tail := root.tail ++ [{
        object := object
        baseOffset := baseOffset
        recordCount := records.length
        byteLength := encoded.length
        sha256 := self.crates.sha256Hex (.raw encoded)
        receivedAtMs := some receivedAtMs }] }
    let _ ← Engine.orStore (← Engine.perform (.put object (.raw encoded) .create))
    appendAdditions receivedAtMs additions root

/-- Enter the producers' states into the directory. -/
def updateProducers (nextOffset : Int) :
    List ProducerState → Option ProducerRef → Engine (Option ProducerRef)
  | [], producers => pure producers
  | state :: states, producers => do
    let producers ← self.updateProducer producers state nextOffset
    updateProducers nextOffset states (some producers)

/-- The result of a request: from its first batch to its last. -/
def Decision.result (d : Decision) : AppendResult :=
  ⟨(d.results.head?.map (·.baseOffset)).getD d.nextOffset,
    (d.results.getLast?.map (·.lastOffset)).getD d.nextOffset⟩

/-- `prepare_append`. -/
def prepareAppend (manifest : LogManifest) (batches : List (List Record × String))
    (receivedAtMs : Nat) : Engine (AppendResult × Option Root) := do
  let initialOffset := manifest.nextOffset
  let d ← self.decideBatches manifest.producers initialOffset batches ⟨initialOffset, [], [], []⟩
  -- every batch was a repeated one: nothing is published
  if d.additions = [] then return (d.result, none)
  let root ← self.appendRoot manifest receivedAtMs
  let root ← self.appendAdditions receivedAtMs d.additions root
  let producers ← self.updateProducers d.nextOffset d.states root.producers
  return (d.result, some { root with producers := producers })

/-- The retry loop of `append_batches`. -/
def appendAttempts (batches : List (List Record × String)) (receivedAtMs : Nat) :
    Nat → Engine AppendResult
  | 0 => throw (.contentionExhausted maxCasAttempts)
  | attempts + 1 => do
    let loaded := (← self.loadManifest).getD LoadedManifest.empty
    match ← attempt (self.prepareAppend loaded.manifest batches receivedAtMs) with
    | .error error =>
      -- the object may be missing because another client has replaced the manifest
      if ← self.staleMissing loaded.version error then
        appendAttempts batches receivedAtMs attempts
      else throw error
    | .ok (result, none) => return result
    | .ok (result, some next) =>
      Engine.check (self.validateRoot next)
      let body := Body.manifest (.indexed next)
      if self.crates.size body > maxManifestBytes then
        throw (.manifestTooLarge (self.crates.size body) maxManifestBytes)
      match ← Engine.perform (.put self.manifestPath body loaded.mode) with
      | .ok _ => return result
      -- another client has published in between
      | .error .precondition | .error .alreadyExists =>
        appendAttempts batches receivedAtMs attempts
      | .error e => throw (.objectStore e)

/-- `append_batches`, of an engine with this default. -/
def appendBatches (defaultPartitions : PartitionCount) (clock : Option Nat)
    (batches : List (List Record)) : Engine AppendResult := do
  let fingerprints ← Engine.check (self.admitBatches batches)
  let receivedAtMs ← Engine.check (unixMillis clock)
  let _ ← self.ensureTopic defaultPartitions
  self.appendAttempts (batches.zip fingerprints) receivedAtMs maxCasAttempts

/-! ## Fetch -/

/-- The checks of `read_segment` on the object that was read. -/
def acceptSegment (segment : Segment) (result : GetResult Body) :
    Except LogError (List UInt8) := do
  rejectIf (result.size ≠ segment.byteLength)
    (.corruptSegment segment.object "object metadata length does not match the manifest")
  let body ← (self.crates.collectBounded result segment.byteLength).mapError fun
    | .store source => .missingSegment segment.object source
    | .tooLarge => .corruptSegment segment.object "object body exceeds the manifest length"
  rejectIf (self.crates.size body ≠ segment.byteLength ∨
      self.crates.sha256Hex body ≠ segment.sha256)
    (.corruptSegment segment.object "length or SHA-256 mismatch")
  let bytes ← okOr body.bytes (.corruptSegment segment.object CodecError.malformed.toText)
  let (inspection, records) ← (self.crates.decodeRecordBatches bytes).mapError fun e =>
    .corruptSegment segment.object e.toText
  rejectIf (inspection.batchCount ≠ 1 ∨ inspection.recordCount ≠ segment.recordCount)
    (.corruptSegment segment.object "invalid canonical record-batch headers")
  validateSegmentRecords segment records
  validateCanonicalSegmentRecords segment records
  -- the bytes have to be those that the writer would have produced
  let canonical ← (self.crates.encode records).mapError fun text => .corruptSegment segment.object
    ("cannot safely re-encode committed records: record batch codec failed: " ++ text)
  rejectIf (canonical ≠ bytes)
    (.corruptSegment segment.object "record batch is not the writer's canonical encoding")
  return bytes

/-- `read_segment`. -/
def readSegment (segment : Segment) : Engine (List UInt8) := do
  let path ← Engine.check ((self.crates.pathParse segment.object).mapError fun source =>
    invalid ("invalid segment object path: " ++ source))
  match ← Engine.perform (.get path) with
  | .ok result => Engine.check (self.acceptSegment segment result)
  | .error source => throw (.missingSegment segment.object source)

/-- The record bytes of the selected segments, one after the other. -/
def readSegments : List Segment → Engine (List UInt8)
  | [] => pure []
  | segment :: segments => do
    let bytes ← self.readSegment segment
    return bytes ++ (← readSegments segments)

/-- The segment selection of `fetch_snapshot`. -/
def selectSegments (manifest : LogManifest) (selection : Selection) : Engine Selection :=
  match manifest with
  | .legacy m => do
    let (selection, _) ← Engine.check (selection.pushAll m.segments)
    return selection
  | .indexed root => self.indexedSegments root selection

/-- `fetch_snapshot`. -/
def fetchSnapshot (manifest : LogManifest) (offset : Int) (maximumBytes : Nat)
    (allowOversizedFirstBatch : Bool) : Engine BoundedFetch := do
  let highWatermark := manifest.nextOffset
  if offset < manifest.startOffset ∨ offset > highWatermark then
    throw (.offsetOutOfRange offset highWatermark)
  -- at the end of the log there is nothing to read yet
  if offset = highWatermark then return ⟨[], highWatermark, false⟩
  let selection ← self.selectSegments manifest
    (Selection.new offset maximumBytes allowOversizedFirstBatch)
  let encoded ← self.readSegments selection.segments
  return ⟨encoded, highWatermark, selection.oversizedFirstBatch⟩

/-- The retry loop of `fetch_bounded`. -/
def fetchAttempts (offset : Int) (maximumBytes : Nat) (allowOversizedFirstBatch : Bool) :
    Nat → Engine BoundedFetch
  | 0 => throw (.contentionExhausted maxCasAttempts)
  | attempts + 1 => do
    let loaded := (← self.loadManifest).getD LoadedManifest.empty
    match ← attempt
        (self.fetchSnapshot loaded.manifest offset maximumBytes allowOversizedFirstBatch) with
    | .ok fetched => return fetched
    | .error error =>
      -- the segment may be missing because another client has removed it
      if ← self.staleMissing loaded.version error then
        fetchAttempts offset maximumBytes allowOversizedFirstBatch attempts
      else throw error

/-- `fetch_bounded`. -/
def fetchBounded (offset : Int) (maximumBytes : Nat) (allowOversizedFirstBatch : Bool) :
    Engine BoundedFetch := do
  Engine.check (validateTopic self.topic)
  self.requirePartition
  if offset < 0 then throw (.invalidOffset offset)
  self.fetchAttempts offset maximumBytes allowOversizedFirstBatch maxCasAttempts

/-- `offsets`. -/
def offsets : Engine OffsetRange := do
  Engine.check (validateTopic self.topic)
  self.requirePartition
  let loaded := (← self.loadManifest).getD LoadedManifest.empty
  return ⟨loaded.manifest.startOffset, loaded.manifest.nextOffset⟩

end PartitionLog

end Walstream.Log

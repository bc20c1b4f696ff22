import Walstream.Wire.Accepting

/-!
# Layouts of the advertised requests

The requests of the Kafka protocol in the versions that the broker advertises, field by
field, and that `validate_request_frame` accepts exactly these.
-/

namespace Walstream.Wire

open Framing Layout

abbrev int8 : Layout := .fixed 1
abbrev int16 : Layout := .fixed 2
abbrev int32 : Layout := .fixed 4
abbrev int64 : Layout := .fixed 8
abbrev string : Layout := .sized 2 false
abbrev nullableString : Layout := .sized 2 true
abbrev byteString : Layout := .sized 4 false
abbrev nullableByteString : Layout := .sized 4 true
abbrev many (fields : List Layout) : Layout := .array false (record fields)

/-- The version from which on an API has the flexible encoding. -/
def firstFlexibleVersion : ApiKey → Option Int
  | .produce => some 9
  | .fetch => some 12
  | .listOffsets => some 6
  | .metadata => some 9
  | .offsetCommit => some 8
  | .offsetFetch => some 6
  | .findCoordinator => some 3
  | .joinGroup => some 6
  | .heartbeat => some 4
  | .leaveGroup => some 4
  | .syncGroup => some 4
  | .apiVersions => some 3
  | .initProducerId => some 2
  | .other _ => none

/-- The version of the request header: 2 where the encoding is flexible, 1 elsewhere. -/
def flexibleHeaderVersion (apiKey : ApiKey) (version : Int) : Int :=
  if (firstFlexibleVersion apiKey).any (· ≤ version) then 2 else 1

/-- Key, version, correlation id, client id, and tags in header version 2. -/
def headerLayout (apiKey : ApiKey) (version : Int) : Layout :=
  record ([.constant 2 apiKey.code, .constant 2 version, int32, nullableString] ++
    if flexibleHeaderVersion apiKey version = 2 then [.tags] else [])

/-- Software name and version, from version 3 on. -/
def apiVersionsLayout (version : Int) : Layout :=
  record (if 3 ≤ version then [.compact false, .compact false, .tags] else [])

/-- Transactional id, timeout; producer id and epoch from version 3 on. -/
def initProducerIdLayout (version : Int) : Layout :=
  record ([if 2 ≤ version then .compact true else nullableString, int32] ++
    (if 3 ≤ version then [int64, int16] else []) ++ if 2 ≤ version then [.tags] else [])

/-- The body of a request. -/
def bodyLayout (version : Int) : ApiKey → Layout
  | .apiVersions => apiVersionsLayout version
  | .initProducerId => initProducerIdLayout version
  -- topics, whether they may be created
  | .metadata => record [.array true string, int8]
  -- transactional id, acks, timeout, topics of partitions with records
  | .produce => record [nullableString, int16, int32,
      many [string, many [int32, nullableByteString]]]
  -- replica, wait, least and most bytes, isolation, topics of partitions with offset and limit
  | .fetch => record [int32, int32, int32, int32, int8, many [string, many [int32, int64, int32]]]
  -- replica, isolation, topics of partitions with timestamp
  | .listOffsets => record [int32, int8, many [string, many [int32, int64]]]
  -- key, key type
  | .findCoordinator => record [string, int8]
  -- group, session and rebalance timeout, member, protocol type, protocols with metadata
  | .joinGroup => record [string, int32, int32, string, string, many [string, byteString]]
  -- group, generation, member, assignments
  | .syncGroup => record [string, int32, string, many [string, byteString]]
  -- group, generation, member
  | .heartbeat => record [string, int32, string]
  -- group, member
  | .leaveGroup => record [string, string]
  -- group, generation, member, retention, topics of partitions with offset and metadata
  | .offsetCommit => record [string, int32, string, int64,
      many [string, many [int32, int64, nullableString]]]
  -- group, topics of partitions
  | .offsetFetch => record [string, .array true (record [string, .array false int32])]
  | .other _ => .empty

/-- A whole request. -/
def requestLayout (apiKey : ApiKey) (version : Int) : Layout :=
  .seq (headerLayout apiKey version) (bodyLayout version apiKey)

/-! ## The validators follow their layouts -/

variable {slack : Nat}

/-- A string and then the other fields. -/
theorem follows_string {nullable : Bool} {β : Type} {w : Unit → Reading β} {fields : List Layout}
    (hw : ∀ a, Follows (w a) (.record fields) slack) (h : slack ≤ 2) :
    Follows (classicString nullable >>= w) (.record (.sized 2 nullable :: fields)) 0 :=
  (follows_classicString nullable).cons hw (by rw [Nat.zero_add]; exact h)

/-- A record that ends with a nested collection. -/
theorem follows_many {body : Reading Unit} {fields : List Layout} {minimum : Nat} {detail : String}
    (h : Follows body (.record fields) 0) (hpos : 1 ≤ (record fields).least)
    (hmin : minimum ≤ (record fields).least) :
    Follows (do
      let count ← orMalformed (← classicArray false minimum) detail
      forItems count body) (.record [many fields]) 0 :=
  (follows_collection h hpos hmin detail).last

theorem follows_produce : Follows validateProduce (bodyLayout 7 .produce) 0 := by
  apply follows_string _ (Nat.zero_le _)
  intro _
  apply follows_take [2, 4] _ (Nat.zero_le _)
  intro _
  apply follows_many _ (by decide) (by decide)
  apply follows_string _ (Nat.zero_le _)
  intro _
  apply follows_many _ (by decide) (by decide)
  apply follows_take [4] _ (Nat.zero_le _)
  intro _
  exact (follows_classicBytes true).last

theorem follows_fetch : Follows validateFetch (bodyLayout 4 .fetch) 0 := by
  apply follows_take [4, 4, 4, 4, 1] _ (Nat.zero_le _)
  intro _
  apply follows_many _ (by decide) (by decide)
  apply follows_string _ (Nat.zero_le _)
  intro _
  apply follows_many _ (by decide) (by decide)
  apply follows_take [4, 8, 4] _ (Nat.zero_le _)
  intro _
  exact follows_pure ()

theorem follows_listOffsets : Follows validateListOffsets (bodyLayout 3 .listOffsets) 0 := by
  apply follows_take [4, 1] _ (Nat.zero_le _)
  intro _
  apply follows_many _ (by decide) (by decide)
  apply follows_string _ (Nat.zero_le _)
  intro _
  apply follows_many _ (by decide) (by decide)
  apply follows_take [4, 8] _ (Nat.zero_le _)
  intro _
  exact follows_pure ()

theorem follows_metadata : Follows validateMetadata (bodyLayout 4 .metadata) 0 := by
  show Follows (classicArray true 2 >>= fun topics => forSomeItems topics (classicString false) >>=
    fun _ => take 1 >>= fun _ => pure ()) _ 0
  rw [← bind_assoc]
  apply (follows_nullableCollection (follows_classicString false) (by decide) (by decide)).cons _
    (Nat.zero_le _)
  intro _
  apply follows_take [1] _ (Nat.zero_le _)
  intro _
  exact follows_pure ()

theorem follows_findCoordinator :
    Follows validateFindCoordinator (bodyLayout 2 .findCoordinator) 0 := by
  apply follows_string _ (Nat.zero_le _)
  intro _
  apply follows_take [1] _ (Nat.zero_le _)
  intro _
  exact follows_pure ()

/-- A protocol of a join and an assignment of a sync: a name and its bytes. -/
theorem follows_named : Follows (do
    classicString false
    classicBytes false) (record [string, byteString]) 0 := by
  apply follows_string _ (Nat.zero_le _)
  intro _
  exact (follows_classicBytes false).last

theorem follows_joinGroup : Follows validateJoinGroup (bodyLayout 2 .joinGroup) 0 := by
  apply follows_string _ (Nat.zero_le _)
  intro _
  apply follows_take [4, 4] _ (Nat.zero_le _)
  intro _
  apply follows_string _ (Nat.zero_le _)
  intro _
  apply follows_string _ (Nat.zero_le _)
  intro _
  exact follows_many follows_named (by decide) (by decide)

theorem follows_syncGroup : Follows validateSyncGroup (bodyLayout 1 .syncGroup) 0 := by
  apply follows_string _ (Nat.zero_le _)
  intro _
  apply follows_take [4] _ (Nat.zero_le _)
  intro _
  apply follows_string _ (Nat.zero_le _)
  intro _
  exact follows_many follows_named (by decide) (by decide)

theorem follows_heartbeat : Follows validateHeartbeat (bodyLayout 1 .heartbeat) 0 := by
  apply follows_string _ (Nat.zero_le _)
  intro _
  apply follows_take [4] _ (Nat.zero_le _)
  intro _
  exact (follows_classicString false).last

theorem follows_leaveGroup : Follows validateLeaveGroup (bodyLayout 1 .leaveGroup) 0 := by
  apply follows_string _ (Nat.zero_le _)
  intro _
  exact (follows_classicString false).last

theorem follows_offsetCommit : Follows validateOffsetCommit (bodyLayout 2 .offsetCommit) 0 := by
  apply follows_string _ (Nat.zero_le _)
  intro _
  apply follows_take [4] _ (Nat.zero_le _)
  intro _
  apply follows_string _ (Nat.zero_le _)
  intro _
  apply follows_take [8] _ (Nat.zero_le _)
  intro _
  apply follows_many _ (by decide) (by decide)
  apply follows_string _ (Nat.zero_le _)
  intro _
  apply follows_many _ (by decide) (by decide)
  apply follows_take [4, 8] _ (Nat.zero_le _)
  intro _
  exact (follows_classicString true).last

theorem follows_offsetFetch : Follows validateOffsetFetch (bodyLayout 3 .offsetFetch) 0 := by
  apply follows_string _ (Nat.zero_le _)
  intro _
  apply Follows.last
  apply follows_nullableCollection _ (by decide) (by decide)
  apply follows_string _ (Nat.zero_le _)
  intro _
  exact (reads_fixedCollection (by decide) _).follows.last

theorem follows_tags : Follows taggedFields (record [.tags]) 0 :=
  reads_taggedFields.follows.last

theorem follows_apiVersions (version : Int) :
    Follows (validateApiVersions version) (bodyLayout version .apiVersions) 0 := by
  unfold validateApiVersions bodyLayout apiVersionsLayout
  by_cases h : 3 ≤ version
  · rw [if_pos h, if_pos h]
    apply reads_compactString.follows.cons _ (Nat.zero_le _)
    intro _
    apply reads_compactString.follows.cons _ (Nat.zero_le _)
    intro _
    exact follows_tags
  · rw [if_neg h, if_neg h]
    exact follows_pure ()

/-- The end of an `InitProducerId` request. -/
theorem follows_initProducerId_end (version : Int) :
    Follows (if 2 ≤ version then taggedFields else pure ())
      (record (if 2 ≤ version then [.tags] else [])) 0 := by
  by_cases h : 2 ≤ version
  · rw [if_pos h, if_pos h]
    exact follows_tags
  · rw [if_neg h, if_neg h]
    exact follows_pure ()

theorem follows_initProducerId (version : Int) :
    Follows (validateInitProducerId version) (bodyLayout version .initProducerId) 0 := by
  have hrest : ∀ bytes : Bytes, Follows (if 3 ≤ version then
      take 10 >>= fun _ => if 2 ≤ version then taggedFields else pure ()
      else if 2 ≤ version then taggedFields else pure ())
      (record ((if 3 ≤ version then [int64, int16] else []) ++
        if 2 ≤ version then [.tags] else [])) 0 := by
    intro _
    by_cases h : 3 ≤ version
    · rw [if_pos h, if_pos h]
      apply follows_take [8, 2] _ (Nat.zero_le _)
      intro _
      exact follows_initProducerId_end version
    · rw [if_neg h, if_neg h]
      exact follows_initProducerId_end version
  have htimeout := follows_take [4] hrest (Nat.zero_le _)
  unfold validateInitProducerId bodyLayout initProducerIdLayout
  dsimp only
  rw [List.append_assoc]
  by_cases h : 2 ≤ version
  · simp only [if_pos h] at htimeout ⊢
    exact reads_compactTransactionalId.follows.cons (fun _ => htimeout) (Nat.zero_le _)
  · simp only [if_neg h] at htimeout ⊢
    exact follows_string (fun _ => htimeout) (Nat.zero_le _)

/-- Every advertised body is validated along its layout. -/
theorem follows_body {apiKey : ApiKey} {version : Int} (h : isSupported apiKey version = true) :
    Follows (validateBody apiKey version) (bodyLayout version apiKey) 0 := by
  have hversion : ∃ least greatest, (apiKey, least, greatest) ∈ supportedApis ∧
      least ≤ version ∧ version ≤ greatest := by
    obtain ⟨⟨key, least, greatest⟩, hmem, hkey⟩ := List.any_eq_true.mp h
    obtain ⟨rfl, hleast, hgreatest⟩ := of_decide_eq_true hkey
    exact ⟨least, greatest, hmem, hleast, hgreatest⟩
  -- the table lists the versions of every API, and each API has its own layout
  obtain ⟨least, greatest, hmem, hleast, hgreatest⟩ := hversion
  simp only [supportedApis, List.mem_cons, Prod.mk.injEq, List.not_mem_nil, or_false] at hmem
  rcases hmem with ⟨rfl, rfl, rfl⟩ | ⟨rfl, rfl, rfl⟩ | ⟨rfl, rfl, rfl⟩ | ⟨rfl, rfl, rfl⟩ |
    ⟨rfl, rfl, rfl⟩ | ⟨rfl, rfl, rfl⟩ | ⟨rfl, rfl, rfl⟩ | ⟨rfl, rfl, rfl⟩ | ⟨rfl, rfl, rfl⟩ |
    ⟨rfl, rfl, rfl⟩ | ⟨rfl, rfl, rfl⟩ | ⟨rfl, rfl, rfl⟩ | ⟨rfl, rfl, rfl⟩
  · exact follows_produce
  · exact follows_initProducerId version
  · exact follows_fetch
  · exact follows_listOffsets
  · exact follows_metadata
  · exact follows_offsetCommit
  · exact follows_offsetFetch
  · exact follows_findCoordinator
  · exact follows_joinGroup
  · exact follows_heartbeat
  · exact follows_leaveGroup
  · exact follows_syncGroup
  · exact follows_apiVersions version

theorem follows_header (apiKey : ApiKey) (version : Int) :
    Follows (validateHeader apiKey version (flexibleHeaderVersion apiKey version))
      (headerLayout apiKey version) 0 := by
  apply (reads_expectI16 apiKey.code).follows.cons _ (Nat.zero_le _)
  intro _
  apply (reads_expectI16 version).follows.cons _ (Nat.zero_le _)
  intro _
  apply follows_take [4] _ (Nat.zero_le _)
  intro _
  apply follows_string _ (Nat.zero_le _)
  intro _
  by_cases h : (firstFlexibleVersion apiKey).any (· ≤ version) = true
  · rw [flexibleHeaderVersion, if_pos h]
    exact follows_tags
  · rw [flexibleHeaderVersion, if_neg h]
    exact follows_pure ()

/-! ## Whole frames -/

theorem run_validateEnd (c : Cursor) : run validateEnd c =
    if c.input = [] then (.ok (), c) else (.error (.malformed "trailing request bytes"), c) := by
  rcases c with ⟨_ | ⟨b, rest⟩, left, steps⟩ <;> rfl

/-- `validate_request_frame` after the reader of the header and the body. -/
theorem run_walkFrame (requestHeaderVersion : ApiKey → Int → Int) (apiKey : ApiKey) (version : Int)
    (c : Cursor) : run (walkFrame requestHeaderVersion apiKey version) c =
      run ((validateHeader apiKey version (requestHeaderVersion apiKey version) >>= fun _ =>
        validateBody apiKey version) >>= fun _ => validateEnd) c := by
  rw [bind_assoc]
  rfl

/-- A frame of an advertised API and version is accepted exactly when it is a complete
request of that layout with nothing left over and at most 10000 collection items, counted
over all nesting levels. On no frame does the pass start more iterations over items than
10000, nor more than the frame has bytes. -/
theorem validateRequestFrame_ok_iff (requestHeaderVersion : ApiKey → Int → Int)
    {apiKey : ApiKey} {version : Int} (hsupported : isSupported apiKey version = true)
    (hheader : requestHeaderVersion apiKey version = flexibleHeaderVersion apiKey version)
    (frame : Bytes) :
    (validateRequestFrame requestHeaderVersion frame apiKey version = .ok () ↔
      ∃ items, items ≤ maxRequestCollectionItems ∧
        (requestLayout apiKey version).Encodes frame items) ∧
    (runFrame requestHeaderVersion frame apiKey version).2.itemSteps ≤
      min maxRequestCollectionItems frame.length := by
  -- the header and the body, which follow the layout of the request
  let walk : Reading Unit := validateHeader apiKey version (requestHeaderVersion apiKey version) >>=
    fun _ => validateBody apiKey version
  have hwalk : Follows walk (requestLayout apiKey version) 0 := by
    show Follows (validateHeader apiKey version (requestHeaderVersion apiKey version) >>= _) _ 0
    rw [hheader]
    exact (follows_header apiKey version).seq (fun _ => follows_body hsupported) le_rfl (Nat.zero_le _)
  obtain ⟨F, hreads, henc⟩ := hwalk
  -- at the end of the frame nothing may be left
  have hrun : runFrame requestHeaderVersion frame apiKey version =
      run (walk >>= fun _ => validateEnd) (Cursor.new frame) := run_walkFrame ..
  -- the frame is accepted when the walk takes all of it
  constructor
  · rw [validateRequestFrame, hrun]
    constructor
    · intro hok
      obtain ⟨_, c, hwalk, hend⟩ := run_bind_ok.mp (Prod.ext (y := (_, _)) hok rfl)
      obtain ⟨bytes, items, hinput, hleft, hF⟩ := hreads.sound hwalk
      have hempty : c.input = [] := by
        by_contra hne
        rw [run_validateEnd, if_neg hne] at hend
        cases hend
      rw [hempty, List.append_nil] at hinput
      obtain rfl : frame = bytes := hinput
      refine ⟨items, ?_, (henc _ _).mp ⟨_, hF⟩⟩
      have : maxRequestCollectionItems = items + c.collectionItemsLeft := hleft
      omega
    -- a frame of the layout is walked through to its end
    · rintro ⟨items, hitems, hlayout⟩
      obtain ⟨a, hF⟩ := (henc frame items).mpr hlayout
      have hinput : (Cursor.new frame).input = frame ++ [] := (List.append_nil frame).symm
      obtain ⟨steps, hwalk⟩ := hreads.complete hinput hF hitems
      rw [run_bind_of_ok hwalk]
      rfl
  -- the end of the frame starts no iteration
  · rw [hrun]
    have hbudget := hreads.budget (Cursor.new frame)
    have hpace := hreads.pace (Cursor.new frame)
    have hend : (run (walk >>= fun _ => validateEnd) (Cursor.new frame)).2 =
        (run walk (Cursor.new frame)).2 := by
      rw [run_bind]
      rcases run walk (Cursor.new frame) with ⟨e | a, c⟩
      · rfl
      · show (run validateEnd c).2 = c
        rw [run_validateEnd]
        split <;> rfl
    rw [hend]
    show _ ≤ min maxRequestCollectionItems (Cursor.new frame).input.length
    have : (Cursor.new frame).itemSteps = 0 := rfl
    have : (Cursor.new frame).collectionItemsLeft = maxRequestCollectionItems := rfl
    omega

/-- A `Fetch` request in version 4: partitions 0 and 1 of topic `a`, and partition 2 of topic `b`. -/
def fetchFrame : Bytes :=
  [0, 1, 0, 4, 0, 0, 0, 1, 0, 1, 99] ++
  [255, 255, 255, 255, 0, 0, 0, 100, 0, 0, 0, 1, 0, 16, 0, 0, 0] ++ [0, 0, 0, 2] ++
  [0, 1, 97] ++ [0, 0, 0, 2] ++
  [0, 0, 0, 0, 0, 0, 0, 0, 0, 0, 0, 5, 0, 1, 0, 0] ++
  [0, 0, 0, 1, 0, 0, 0, 0, 0, 0, 0, 7, 0, 1, 0, 0] ++
  [0, 1, 98] ++ [0, 0, 0, 1] ++ [0, 0, 0, 2, 0, 0, 0, 0, 0, 0, 0, 0, 0, 1, 0, 0]

/-- An `InitProducerId` request in version 4: a tag in the header, a transactional id, and two tags
in the body. -/
def initProducerIdFrame : Bytes :=
  [0, 22, 0, 4, 0, 0, 0, 1, 255, 255] ++ [1, 5, 2, 1, 2] ++
  [3, 116, 120] ++ [0, 0, 39, 16, 255, 255, 255, 255, 255, 255, 255, 255, 255, 255] ++
  [2, 0, 1, 9, 128, 1, 0]

/-- Both frames are accepted: one with nested collections, and one in a flexible version. -/
theorem validateRequestFrame_ok_iff_frames :
    ((∃ items, items ≤ maxRequestCollectionItems ∧
        (requestLayout .fetch 4).Encodes fetchFrame items) ∧
      (runFrame flexibleHeaderVersion fetchFrame .fetch 4).2.itemSteps ≤ fetchFrame.length) ∧
    (∃ items, items ≤ maxRequestCollectionItems ∧
      (requestLayout .initProducerId 4).Encodes initProducerIdFrame items) ∧
    (runFrame flexibleHeaderVersion initProducerIdFrame .initProducerId 4).2.itemSteps ≤
      initProducerIdFrame.length := by
  obtain ⟨hfetch, hfetchSteps⟩ := validateRequestFrame_ok_iff flexibleHeaderVersion
    (show isSupported .fetch 4 = true by decide) rfl fetchFrame
  obtain ⟨hinit, hinitSteps⟩ := validateRequestFrame_ok_iff flexibleHeaderVersion
    (show isSupported .initProducerId 4 = true by decide) rfl initProducerIdFrame
  exact ⟨⟨hfetch.mp (by decide +kernel), hfetchSteps.trans (min_le_right ..)⟩,
    hinit.mp (by decide +kernel), hinitSteps.trans (min_le_right ..)⟩

end Walstream.Wire

import Walstream.Log.IndexRoot
import Walstream.Log.ProducerGrowth

/-!
# What a manifest stands for

`LogState` is the log as its users see it: a range of offsets, the segments that hold them,
and what is known of the producers. `Coherent content m objects v`: in a store with this
content, the manifest `m` stands for `v`, and reaches exactly the objects `objects`.
-/

namespace Walstream.Log

open Interaction Tiling

/-- The log that a manifest describes. -/
structure LogState where
  start : Int
  next : Int
  segments : List Segment
  producers : List ProducerState
  deriving DecidableEq, Repr

/-- The log before anything was published. -/
def LogState.empty : LogState := ⟨0, 0, [], []⟩

/-- The log after its first `k` segments were removed. -/
def LogState.retain (v : LogState) (k : Nat) : LogState where
  start := (v.segments[k]?.map (·.baseOffset)).getD v.next
  next := v.next
  segments := v.segments.drop k
  producers := v.producers

namespace PartitionLog

/-- A manifest of the flat format stands for its list of segments. -/
structure CoherentFlat (log : PartitionLog) (content : String → Option Body) (m : Manifest)
    (objects : List String) (v : LogState) : Prop where
  valid : log.validateManifest m = .ok ()
  stored : log.Stored content m.segments
  objects : objects = m.segments.map (·.object)
  state : v = ⟨0, m.nextOffset, m.segments, []⟩
  revision_le : m.revision ≤ u64Max

/-- A root stands for the segments of its tree and tail and the states of its directory. -/
structure CoherentRoot (log : PartitionLog) (content : String → Option Body) (root : Root)
    (objects : List String) (v : LogState) : Prop where
  valid : log.ValidRoot root
  pages : ∃ os ps, log.Indexed content root os v.segments v.next ∧
    log.Directory content root.nextOffset root.producers ps v.producers ∧
    objects = os ++ v.segments.map (·.object) ++ ps
  nodup : objects.Nodup
  start : v.start = root.startOffset
  next : v.next = root.nextOffset
  fits : v.next ≤ i64Max
  ids : IdsFit v.producers
  count_le : v.segments.length ≤ root.revision
  revision_le : root.revision ≤ u64Max

/-- The manifest stands for `v` and reaches `objects`. -/
def Coherent (log : PartitionLog) (content : String → Option Body) (m : LogManifest)
    (objects : List String) (v : LogState) : Prop :=
  match m with
  | .legacy m => log.CoherentFlat content m objects v
  | .indexed root => log.CoherentRoot content root objects v

variable {self : PartitionLog} {content content' : String → Option Body}

theorem validateManifest_eq_ok {m : Manifest} {u : Unit} : self.validateManifest m = .ok u ↔
    m.schema = manifestSchema ∧ m.revision = m.segments.length ∧
      SegmentTiles m.segments 0 m.nextOffset ∧ (∀ s ∈ m.segments, self.ValidSegment s) ∧
      (m.segments.map (·.object)).Nodup := by
  simp only [validateManifest, bind_eq_ok, rejectIf_eq_ok, not_not, validateSegments_eq_ok]
  constructor
  · rintro ⟨_, hschema, _, hrevision, next, ⟨htiles, hvalid, hnodup⟩, rfl⟩
    exact ⟨hschema, hrevision, htiles, hvalid, hnodup⟩
  · rintro ⟨hschema, hrevision, htiles, hvalid, hnodup⟩
    exact ⟨(), hschema, (), hrevision, _, ⟨htiles, hvalid, hnodup⟩, rfl⟩

theorem Forest.object_filed {pages : List PageRef} {os : List String} {ss : List Segment}
    (h : self.Forest content pages os ss) {o : String} (ho : o ∈ os) :
    self.crates.namesUuid (indexNamespace self.keyPrefix self.topic self.partition) ".json" o =
      true := by
  obtain ⟨r, page, rfl, hstored⟩ := h.mem_objects ho
  exact (validatePageRef_eq_ok.mp hstored.reference).1

theorem Grove.object_filed {next : Int} {pages : List ProducerRef} {os : List String}
    {ss : List ProducerState} (h : self.Grove content next pages os ss) {o : String} (ho : o ∈ os) :
    self.crates.namesUuid (producerNamespace self.keyPrefix self.topic self.partition) ".json" o =
      true := by
  obtain ⟨r, page, rfl, hstored⟩ := h.mem_objects ho
  exact (validateProducerRef_eq_ok.mp hstored.reference).1

/-- The empty manifest that `LoadedManifest::empty` gives a partition without one. -/
theorem validRoot_empty : self.ValidRoot Root.empty where
  schema := .inr (.inr rfl)
  tail_le := Nat.zero_le _
  start_nonneg := le_rfl
  adopted := .inr (by simp [Root.empty])
  directory := .inl rfl
  schema_two := fun h => absurd h (by decide)
  producers := by simp [Root.empty]
  tree := by simp [Root.empty]
  tail := rfl
  tail_valid := by simp [Root.empty]
  tail_nodup := by simp [Root.empty]
  count_le := Nat.zero_le _
  count_revision := Nat.zero_le _
  tail_nonempty := fun _ => rfl

theorem coherent_empty : self.Coherent content (.indexed Root.empty) [] LogState.empty where
  valid := validRoot_empty
  pages := ⟨[], [], indexed_empty _ rfl rfl le_rfl, .nil, rfl⟩
  nodup := .nil
  start := rfl
  next := rfl
  fits := by decide
  ids := by simp [IdsFit, LogState.empty]
  count_le := Nat.zero_le _
  revision_le := Nat.zero_le _

namespace Coherent

variable {m : LogManifest} {objects : List String} {v : LogState}

theorem tiles (h : self.Coherent content m objects v) : SegmentTiles v.segments v.start v.next := by
  cases m with
  | legacy m =>
    have hm := h.state
    subst hm
    exact (validateManifest_eq_ok.mp h.valid).2.2.1
  | indexed root =>
    obtain ⟨_, _, hindexed, -, -⟩ := h.pages
    exact h.start ▸ hindexed.tiles

theorem valid_segments (h : self.Coherent content m objects v) :
    ∀ s ∈ v.segments, self.ValidSegment s := by
  cases m with
  | legacy m =>
    have hm := h.state
    subst hm
    exact (validateManifest_eq_ok.mp h.valid).2.2.2.1
  | indexed root =>
    obtain ⟨_, _, hindexed, -, -⟩ := h.pages
    exact hindexed.valid

theorem stored_segments (h : self.Coherent content m objects v) :
    self.Stored content v.segments := by
  cases m with
  | legacy m =>
    have hm := h.state
    subst hm
    exact h.stored
  | indexed root =>
    obtain ⟨_, _, hindexed, -, -⟩ := h.pages
    exact hindexed.stored

theorem object_mem (h : self.Coherent content m objects v) {s : Segment} (hs : s ∈ v.segments) :
    s.object ∈ objects := by
  cases m with
  | legacy m =>
    have hm := h.state
    subst hm
    rw [h.objects]
    exact List.mem_map_of_mem hs
  | indexed root =>
    obtain ⟨_, _, -, -, heq⟩ := h.pages
    rw [heq]
    simp only [List.mem_append, List.mem_map]
    exact .inl (.inr ⟨s, hs, rfl⟩)

theorem nodup_segments (h : self.Coherent content m objects v) :
    (v.segments.map (·.object)).Nodup := by
  cases m with
  | legacy m =>
    have hm := h.state
    subst hm
    exact (validateManifest_eq_ok.mp h.valid).2.2.2.2
  | indexed root =>
    obtain ⟨_, _, hindexed, -, -⟩ := h.pages
    exact (List.nodup_append.mp hindexed.nodup).2.1

theorem start_eq (h : self.Coherent content m objects v) : v.start = m.startOffset := by
  cases m with
  | legacy m => rw [h.state]; rfl
  | indexed root => exact h.start

theorem next_eq (h : self.Coherent content m objects v) : v.next = m.nextOffset := by
  cases m with
  | legacy m => rw [h.state]; rfl
  | indexed root => exact h.next

theorem start_nonneg (h : self.Coherent content m objects v) : 0 ≤ v.start := by
  cases m with
  | legacy m => rw [h.state]
  | indexed root => exact h.start ▸ h.valid.start_nonneg

theorem fits_next (h : self.Coherent content m objects v) : v.next ≤ i64Max := by
  cases m with
  | legacy m =>
    by_cases hne : v.segments = []
    · have htiles := h.tiles
      have hstart : v.start = 0 := by rw [h.state]
      rw [hne] at htiles
      have hnext : v.start = v.next := htiles
      rw [← hnext, hstart]
      decide
    · exact segments_end_le h.tiles h.valid_segments hne
  | indexed root => exact h.fits

theorem ids_fit (h : self.Coherent content m objects v) : IdsFit v.producers := by
  cases m with
  | legacy m => rw [h.state]; simp [IdsFit]
  | indexed root => exact h.ids

theorem count (h : self.Coherent content m objects v) : v.segments.length ≤ m.revision := by
  cases m with
  | legacy m =>
    rw [h.state]
    exact (validateManifest_eq_ok.mp h.valid).2.1.ge
  | indexed root => exact h.count_le

theorem revision_fits (h : self.Coherent content m objects v) : m.revision ≤ u64Max := by
  cases m with
  | legacy m => exact CoherentFlat.revision_le h
  | indexed root => exact CoherentRoot.revision_le h

/-- The directory of the manifest holds the states of the producers. -/
theorem directory (h : self.Coherent content m objects v) :
    ∃ ps, self.Directory content v.next m.producers ps v.producers ∧ ps.Nodup ∧
      (∀ o ∈ ps, o ∈ objects) ∧ ∀ s ∈ v.segments, s.object ∉ ps := by
  cases m with
  | legacy m =>
    rw [h.state]
    exact ⟨[], .nil, .nil, by simp, by simp⟩
  | indexed root =>
    obtain ⟨os, ps, -, hdirectory, heq⟩ := h.pages
    have hnodup := h.nodup
    rw [heq, List.nodup_append] at hnodup
    refine ⟨ps, h.next ▸ hdirectory, hnodup.2.1, fun o ho => heq ▸ List.mem_append_right _ ho, ?_⟩
    intro s hs hmem
    exact hnodup.2.2 _ (List.mem_append_right _ (List.mem_map_of_mem hs)) _ hmem rfl

theorem sorted (h : self.Coherent content m objects v) : Sorted v.producers := by
  obtain ⟨_, hdirectory, -⟩ := h.directory
  exact hdirectory.sorted

theorem valid_states (h : self.Coherent content m objects v) :
    ∀ p ∈ v.producers, ValidState v.next p := by
  obtain ⟨_, hdirectory, -⟩ := h.directory
  exact Grove.valid hdirectory

/-- Every object that the manifest reaches is there. -/
theorem ne_none (h : self.Coherent content m objects v) {o : String} (ho : o ∈ objects) :
    content o ≠ none := by
  cases m with
  | legacy m =>
    rw [h.objects] at ho
    exact h.stored.ne_none ho
  | indexed root =>
    obtain ⟨os, ps, hindexed, hdirectory, heq⟩ := h.pages
    rw [heq] at ho
    rcases List.mem_append.mp ho with ho | ho
    · rcases List.mem_append.mp ho with ho | ho
      · exact hindexed.ne_none ho
      · exact hindexed.stored.ne_none ho
    · exact Grove.content_ne_none hdirectory ho

/-- Every object that the manifest reaches has a name of its own kind, as `Path::from` keeps it. -/
theorem filed (htopic : validateTopic self.topic = .ok ()) (h : self.Coherent content m objects v)
    {o : String} (ho : o ∈ objects) : self.Filed o ∧ self.crates.pathFrom o = o := by
  have hsegment : ∀ s ∈ v.segments, self.Filed s.object ∧ self.crates.pathFrom s.object = s.object := by
    intro s hs
    obtain ⟨bytes, hbytes⟩ := h.stored_segments s hs
    obtain ⟨id, hid⟩ := hbytes.named
    have hnamed : self.Named s.object := ⟨id, hid ▸ self.segmentPath_mem id⟩
    exact ⟨hnamed.filed, self.pathFrom_named htopic hnamed⟩
  cases m with
  | legacy m =>
    have hstate := h.state
    subst hstate
    rw [h.objects] at ho
    obtain ⟨s, hs, rfl⟩ := List.mem_map.mp ho
    exact hsegment s hs
  -- index pages, segments of the tail and of the leaves, then producer pages
  | indexed root =>
    obtain ⟨os, ps, hindexed, hdirectory, heq⟩ := h.pages
    rw [heq] at ho
    rcases List.mem_append.mp ho with ho | ho
    · rcases List.mem_append.mp ho with ho | ho
      · obtain ⟨ss, hforest, -⟩ := hindexed.forest
        obtain ⟨r, page, rfl, hstored⟩ := hforest.mem_objects ho
        exact ⟨.inr (.inl (hforest.object_filed ho)), hstored.path⟩
      · obtain ⟨s, hs, rfl⟩ := List.mem_map.mp ho
        exact hsegment s hs
    · obtain ⟨r, page, rfl, hstored⟩ := Grove.mem_objects hdirectory ho
      exact ⟨.inr (.inr (Grove.object_filed hdirectory ho)), hstored.path⟩

/-- Only the objects that the manifest reaches matter. -/
theorem mono (h : self.Coherent content m objects v) (hc : ∀ o ∈ objects, content' o = content o) :
    self.Coherent content' m objects v := by
  have hstored : self.Stored content' v.segments := by
    intro s hs
    obtain ⟨bytes, hbytes⟩ := h.stored_segments s hs
    exact ⟨bytes, hbytes.mono (hc _ (h.object_mem hs))⟩
  cases m with
  | legacy m =>
    have hm := h.state
    subst hm
    exact ⟨h.valid, hstored, h.objects, rfl, CoherentFlat.revision_le h⟩
  | indexed root =>
    obtain ⟨os, ps, hindexed, hdirectory, heq⟩ := h.pages
    obtain ⟨ss, hforest, hss⟩ := hindexed.forest
    -- every object that a page or a tail names is one of `objects`
    refine ⟨h.valid, ⟨os, ps, ⟨⟨ss, hforest.mono fun o ho => hc o ?_, hss⟩, hindexed.first,
      hindexed.tiles, hindexed.valid, hstored, hindexed.nodup, hindexed.start_nonneg,
      hindexed.tail_le⟩, Grove.mono hdirectory fun o ho => hc o ?_, heq⟩, h.nodup, h.start, h.next,
      h.fits, h.ids, h.count_le, CoherentRoot.revision_le h⟩
    · rw [heq]; simp [ho]
    · rw [heq]; simp [ho]

/-- A manifest stays coherent when objects are added. -/
theorem extend (h : self.Coherent content m objects v)
    (hc : ∀ o body, content o = some body → content' o = some body) :
    self.Coherent content' m objects v :=
  h.mono fun o ho => by
    obtain ⟨body, hbody⟩ := Option.ne_none_iff_exists'.mp (h.ne_none ho)
    rw [hbody, hc o body hbody]

/-- A manifest stands for one state of the log, and reaches one list of objects. -/
theorem unique (h : self.Coherent content m objects v) {objects' : List String} {v' : LogState}
    (h' : self.Coherent content m objects' v') : objects = objects' ∧ v = v' := by
  cases m with
  | legacy m =>
    exact ⟨h.objects.trans (CoherentFlat.objects h').symm, h.state.trans (CoherentFlat.state h').symm⟩
  | indexed root =>
    obtain ⟨os, ps, hindexed, hdirectory, rfl⟩ := h.pages
    -- both readings walk the same pages, so they list the same segments and producers
    obtain ⟨os', ps', hindexed', hdirectory', rfl⟩ := CoherentRoot.pages h'
    obtain ⟨ss, hforest, hss⟩ := hindexed.forest
    obtain ⟨ss', hforest', hss'⟩ := hindexed'.forest
    obtain ⟨rfl, rfl⟩ := hforest.unique hforest'
    obtain ⟨rfl, hproducers⟩ := Grove.unique hdirectory hdirectory'
    have hsegments : v.segments = v'.segments := hss.trans hss'.symm
    have hstart : v.start = v'.start := h.start.trans (CoherentRoot.start h').symm
    have hnext : v.next = v'.next := h.next.trans (CoherentRoot.next h').symm
    refine ⟨by rw [hsegments], ?_⟩
    cases v
    cases v'
    simp_all

end Coherent

end PartitionLog

end Walstream.Log

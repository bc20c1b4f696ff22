import Walstream.Log.IndexGrowth

/-!
# Roots over an index

What a root with its tree and tail stands for, how sealing and migration keep it, and how
it makes the root valid.
-/

namespace Walstream.Log

open Interaction Tiling

namespace PartitionLog

/-- The record object of a segment is there and can be read. -/
structure StoredSegment (log : PartitionLog) (content : String → Option Body) (s : Segment)
    (bytes : List UInt8) : Prop where
  body : content s.object = some (.raw bytes)
  length : bytes.length = s.byteLength
  named : ∃ id, s.object = log.segmentPath id
  readable : Kafka log.crates →
    log.acceptSegment s ⟨bytes.length, .raw bytes, .ok (.raw bytes)⟩ = .ok bytes

/-- The record objects of the segments are there. -/
def Stored (log : PartitionLog) (content : String → Option Body) (segments : List Segment) :
    Prop := ∀ s ∈ segments, ∃ bytes, log.StoredSegment content s bytes

/-- The tree of a root consists of the pages `os`, and tree and tail hold `segments`, which
reach from the start offset to `e`. -/
structure Indexed (log : PartitionLog) (content : String → Option Body) (root : Root)
    (os : List String) (segments : List Segment) (e : Int) : Prop where
  forest : ∃ ss, log.Forest content root.tree.toList os ss ∧ segments = ss ++ root.tail
  first : ∀ r ∈ root.tree, r.firstOffset = root.startOffset
  tiles : SegmentTiles segments root.startOffset e
  valid : ∀ s ∈ segments, log.ValidSegment s
  stored : log.Stored content segments
  nodup : (os ++ segments.map (·.object)).Nodup
  start_nonneg : 0 ≤ root.startOffset
  tail_le : root.tail.length ≤ pageEntries

variable {self : PartitionLog} {n n' : Notes Body} {F : LogError → Prop}
  {content content' : String → Option Body}

theorem StoredSegment.mono {s : Segment} {bytes : List UInt8}
    (h : self.StoredSegment content s bytes) (hc : content' s.object = content s.object) :
    self.StoredSegment content' s bytes where
  body := hc.trans h.body
  length := h.length
  named := h.named
  readable := h.readable

theorem Stored.grows {segments : List Segment} (h : self.Stored n.content segments)
    (hn : n.Grows n') : self.Stored n'.content segments := by
  intro s hs
  obtain ⟨bytes, hbytes⟩ := h s hs
  exact ⟨bytes, hbytes.mono (by rw [hbytes.body, hn.content _ _ hbytes.body])⟩

theorem Stored.ne_none {segments : List Segment} (h : self.Stored content segments) {o : String}
    (ho : o ∈ segments.map (·.object)) : content o ≠ none := by
  obtain ⟨s, hs, rfl⟩ := List.mem_map.mp ho
  obtain ⟨bytes, hbytes⟩ := h s hs
  simp [hbytes.body]

theorem segments_end_le {segments : List Segment} {a b : Int} (h : SegmentTiles segments a b)
    (hvalid : ∀ s ∈ segments, self.ValidSegment s) (hne : segments ≠ []) : b ≤ i64Max := by
  obtain ⟨init, last, rfl⟩ := (List.eq_nil_or_concat' segments).resolve_left hne
  have hend : last.endOffset = b := h.getLast
  exact hend ▸ (hvalid last (by simp)).end_le

namespace Indexed

variable {root : Root} {os : List String} {segments : List Segment} {e : Int}

theorem grows (h : self.Indexed n.content root os segments e) (hn : n.Grows n') :
    self.Indexed n'.content root os segments e where
  forest := by
    obtain ⟨ss, hf, heq⟩ := h.forest
    exact ⟨ss, hf.grows hn, heq⟩
  first := h.first
  tiles := h.tiles
  valid := h.valid
  stored := h.stored.grows hn
  nodup := h.nodup
  start_nonneg := h.start_nonneg
  tail_le := h.tail_le

theorem ne_none (h : self.Indexed content root os segments e) {o : String} (ho : o ∈ os) :
    content o ≠ none := by
  obtain ⟨ss, hf, -⟩ := h.forest
  exact hf.content_ne_none ho

/-- The tree ends where the tail begins. -/
theorem tail_tiles (h : self.Indexed content root os segments e) :
    SegmentTiles root.tail root.treeEnd e ∧ segments.length = root.treeCount + root.tail.length := by
  obtain ⟨ss, hf, rfl⟩ := h.forest
  obtain ⟨m, htree, htail⟩ := tiles_append.mp h.tiles
  have hfirst := h.first
  rcases htreeEq : root.tree with _ | r
  · rw [htreeEq] at hf
    cases hf
    have hm : root.startOffset = m := htree
    simp [Root.treeEnd, Root.treeCount, htreeEq, hm, htail]
  · rw [htreeEq] at hf hfirst
    have hsingle : self.Forest content [r] os ss := hf
    have hr := hsingle.single_tiles
    rw [hfirst r rfl] at hr
    have hm := hr.end_unique htree
    have hcount := hsingle.count
    simp only [countBelow_cons, countBelow_nil, add_zero] at hcount
    simp [Root.treeEnd, Root.treeCount, htreeEq, hm, htail, hcount]

/-- One more segment at the end of the tail. -/
theorem push (h : self.Indexed content root os segments e) {s : Segment} {bytes : List UInt8}
    (root' : Root) (hroom : root.tail.length < pageEntries) (hbase : s.baseOffset = e)
    (hvalid : self.ValidSegment s) (hstored : self.StoredSegment content s bytes)
    (hnew : s.object ∉ os ++ segments.map (·.object))
    (htree : root'.tree = root.tree) (hstart : root'.startOffset = root.startOffset)
    (htail : root'.tail = root.tail ++ [s]) :
    self.Indexed content root' os (segments ++ [s]) s.endOffset where
  -- the tree is the one of before
  forest := by
    obtain ⟨ss, hf, rfl⟩ := h.forest
    exact ⟨ss, by rwa [htree], by rw [htail, List.append_assoc]⟩
  first := by
    rw [htree, hstart]
    exact h.first
  -- the segment continues the range
  tiles := by
    rw [hstart]
    have hpos := hvalid.count_pos
    refine h.tiles.append ⟨hbase, ?_, rfl⟩
    unfold Segment.endOffset
    omega
  valid := by
    intro t ht
    rcases List.mem_append.mp ht with ht | ht
    · exact h.valid t ht
    · rw [List.mem_singleton.mp ht]; exact hvalid
  stored := by
    intro t ht
    rcases List.mem_append.mp ht with ht | ht
    · exact h.stored t ht
    · rw [List.mem_singleton.mp ht]; exact ⟨bytes, hstored⟩
  -- the name is a new one
  nodup := by
    rw [List.map_append, ← List.append_assoc, List.nodup_append]
    refine ⟨h.nodup, by simp, ?_⟩
    rintro o ho o' ho' rfl
    simp only [List.map_cons, List.map_nil, List.mem_singleton] at ho'
    exact hnew (ho' ▸ ho)
  start_nonneg := hstart ▸ h.start_nonneg
  tail_le := by
    rw [htail, List.length_append, List.length_singleton]
    omega

/-- Only the fields that describe the log matter. -/
theorem congr (h : self.Indexed content root os segments e) {root' : Root}
    (htree : root'.tree = root.tree) (hstart : root'.startOffset = root.startOffset)
    (htail : root'.tail = root.tail) : self.Indexed content root' os segments e where
  forest := by rw [htree, htail]; exact h.forest
  first := by rw [htree, hstart]; exact h.first
  tiles := hstart ▸ h.tiles
  valid := h.valid
  stored := h.stored
  nodup := h.nodup
  start_nonneg := hstart ▸ h.start_nonneg
  tail_le := htail ▸ h.tail_le

/-- A root of the newest schema over an index is valid. -/
theorem validRoot (h : self.Indexed content root os segments e) (hschema : root.schema = indexSchema)
    (hadopted : root.adoptedAtMs ≠ none) (hnext : root.nextOffset = e) (he : e ≤ i64Max)
    (hproducers : ∀ r ∈ root.producers, self.validateProducerRef r = .ok ())
    (hrevision : segments.length ≤ root.revision) (hnonempty : root.tail = [] → root.tree = none) :
    self.ValidRoot root where
  schema := .inr (.inr hschema)
  tail_le := h.tail_le
  start_nonneg := h.start_nonneg
  adopted := .inr hadopted
  directory := .inl hschema
  schema_two := fun htwo => absurd (hschema.symm.trans htwo) (by decide)
  producers := hproducers
  -- the tree begins with the root
  tree := by
    intro r hr
    obtain ⟨ss, hf, -⟩ := h.forest
    rw [Option.mem_def.mp hr] at hf
    exact ⟨Forest.root_valid hf, h.first r hr⟩
  tail := by rw [hnext]; exact h.tail_tiles.1
  -- the tail is the end of the segments
  tail_valid := by
    obtain ⟨ss, -, rfl⟩ := h.forest
    exact fun s hs => h.valid s (by simp [hs])
  tail_nodup := by
    obtain ⟨ss, -, rfl⟩ := h.forest
    have := (List.nodup_append.mp h.nodup).2.1
    rw [List.map_append, List.nodup_append] at this
    exact this.2.1
  -- each segment has an offset of its own, and the offsets are bounded
  count_le := by
    have hlen := h.tiles.length_le
    have hstart := h.start_nonneg
    rw [← h.tail_tiles.2]
    unfold i64Max at he
    unfold u64Max
    omega
  count_revision := by
    rw [← h.tail_tiles.2]
    exact hrevision
  tail_nonempty := hnonempty

end Indexed

/-! ## Sealing -/

theorem sealTail_drafts (htopic : validateTopic self.topic = .ok ())
    (hF : ¬ IndexPagesFit self → F (invalid "index page exceeds byte limit"))
    {root : Root} {os : List String} {segments : List Segment} {e : Int}
    (h : self.Indexed n.content root os segments e)
    (hfull : root.tail.length = pageEntries) :
    self.Drafts (self.sealTail root) n (fun root' n' => ∃ tree os',
      root' = { root with tree := some tree, tail := [] } ∧
        self.Indexed n'.content root' os' segments e ∧
        ∀ o ∈ os', o ∈ os ∨ n.content o = none ∧ self.Named o) F := by
  obtain ⟨ss, hf, rfl⟩ := h.forest
  obtain ⟨htail, -⟩ := h.tail_tiles
  have hvalidTail : ∀ s ∈ root.tail, self.ValidSegment s := fun s hs => h.valid s (by simp [hs])
  have hnodupTail : (root.tail.map (·.object)).Nodup := by
    have := (List.nodup_append.mp h.nodup).2.1
    rw [List.map_append, List.nodup_append] at this
    exact this.2.1
  -- what the tail and the old tree give
  have hnodupOs := (List.nodup_append.mp h.nodup).1
  have hne : root.tail ≠ [] := by rintro heq; simp [heq, pageEntries] at hfull
  have hmax := segments_end_le htail hvalidTail hne
  have hstart : 0 ≤ root.treeEnd := by
    have := h.start_nonneg
    obtain ⟨m, htree, -⟩ := tiles_append.mp h.tiles
    rcases htreeEq : root.tree with _ | r
    · simpa [Root.treeEnd, htreeEq] using this
    · rw [htreeEq] at hf
      have hr := Forest.root_valid hf
      have := validatePageRef_eq_ok.mp hr
      simp only [Root.treeEnd, htreeEq, Option.elim_some]
      omega
  -- the segments' objects stay apart from everything that is made here
  have hclose : ∀ {n' : Notes Body} {os' : List String} {t : PageRef}, n.Grows n' →
      self.Forest n'.content [t] os' (ss ++ root.tail) → os'.Nodup →
      t.firstOffset = root.startOffset →
      (∀ o ∈ os', o ∈ os ∨ n.content o = none ∧ self.Named o) →
      self.Indexed n'.content { root with tree := some t, tail := [] } os' (ss ++ root.tail) e := by
    intro n' os' t hn hforest hnodup hfirst hobjects
    refine ⟨⟨ss ++ root.tail, hforest, by simp⟩, by simpa using hfirst, h.tiles, h.valid,
      h.stored.grows hn, List.nodup_append.mpr ⟨hnodup, (List.nodup_append.mp h.nodup).2.1, ?_⟩,
      h.start_nonneg, Nat.zero_le _⟩
    rintro o ho o' ho' rfl
    rcases hobjects o ho with hos | ⟨hnone, -⟩
    · exact (List.nodup_append.mp h.nodup).2.2 o hos o ho' rfl
    · exact h.stored.ne_none ho' hnone
  unfold sealTail
  have hnamedTail : ∀ s ∈ root.tail, ∃ id, s.object = self.segmentPath id := by
    intro s hs
    obtain ⟨_, hbytes⟩ := h.stored s (by simp [hs])
    exact hbytes.named
  -- the tail is written as a leaf
  refine drafting_bind (writeLeaf_drafts htopic hfull htail hvalidTail hnamedTail hnodupTail hstart hF
    fun r n₁ hr hwrote => And.intro hr hwrote) ?_
  rintro leaf n₁ hn₁ ⟨hr, hwrote⟩
  simp only [PageRef.bounds, Prod.mk.injEq] at hr
  obtain ⟨hfirst, hnext, hcount, hlevel⟩ := hr
  have hleaf := Forest.of_leaf hwrote.stored
  -- the leaf is the first tree
  rcases htreeEq : root.tree with _ | tree
  · rw [htreeEq] at hf
    cases hf
    refine drafting_pure ⟨leaf, [leaf.object], rfl, ?_, ?_⟩
    · refine hclose hn₁ (by simpa using hleaf) (by simp) ?_ ?_
      · simpa [Root.treeEnd, htreeEq] using hfirst
      · intro o ho
        rw [List.mem_singleton.mp ho]
        exact .inr ⟨hwrote.fresh, hwrote.named⟩
    · intro o ho
      rw [List.mem_singleton.mp ho]
      exact .inr ⟨hwrote.fresh, hwrote.named⟩
  · have hf' : self.Forest n.content [tree] os ss := by
      rw [htreeEq] at hf
      exact hf
    -- the name of the leaf is a new one
    have hnodup : (os ++ [leaf.object]).Nodup := by
      refine List.nodup_append.mpr ⟨hnodupOs, by simp, ?_⟩
      rintro o ho o' ho' rfl
      rw [List.mem_singleton.mp ho'] at ho
      exact hf'.content_ne_none ho hwrote.fresh
    -- the leaf is put at the end of the tree
    refine drafting_bind (drafting_mono (insertLeaf_drafts htopic hF hleaf hlevel (by omega)
      (hf'.grows hn₁) hnodup (by simp [hfirst, Root.treeEnd, htreeEq]))
      (fun t n₂ hn₂ ht => And.intro hn₂ ht) fun _ => id) ?_
    rintro t n₂ - ⟨hn₂, os', hplanted, hfirst', -⟩
    -- what is under the new tree was under the old one, or is new
    have hobjects : ∀ o ∈ os', o ∈ os ∨ n.content o = none ∧ self.Named o := by
      intro o ho
      rcases hplanted.objects o ho with hmem | ⟨hnone, hnamed⟩
      · rcases List.mem_append.mp hmem with hmem | hmem
        · exact .inl hmem
        · rw [List.mem_singleton.mp hmem]
          exact .inr ⟨hwrote.fresh, hwrote.named⟩
      · exact .inr ⟨Grows.none hn₁ hnone, hnamed⟩
    refine drafting_pure ⟨t, os', rfl, hclose (hn₁.trans hn₂) hplanted.forest hplanted.nodup
      ?_ hobjects, hobjects⟩
    rw [hfirst', h.first tree (by simp [htreeEq])]

/-! ## Carrying segments over -/

/-- The root holds the segments up to `e`, on pages of `base` and pages made since `n`. -/
def Carries (log : PartitionLog) (n n' : Notes Body) (base : List String) (root : Root)
    (segments : List Segment) (e : Int) : Prop :=
  ∃ os, log.Indexed n'.content root os segments e ∧
    ∀ o ∈ os, o ∈ base ∨ n.content o = none ∧ log.Named o

/-- A root without a tail has no tree. -/
def Root.Compact (root : Root) : Prop := root.tail = [] → root.tree = none

theorem Carries.later {n n₁ n₂ : Notes Body} {base : List String} {root' : Root}
    {segments' : List Segment} {e' : Int} {os os' : List String}
    (hn : n.Grows n₁) (hos : ∀ o ∈ os, o ∈ base ∨ n.content o = none ∧ self.Named o)
    (h' : self.Indexed n₂.content root' os' segments' e')
    (hos' : ∀ o ∈ os', o ∈ os ∨ n₁.content o = none ∧ self.Named o) :
    self.Carries n n₂ base root' segments' e' := by
  refine ⟨os', h', fun o ho => ?_⟩
  rcases hos' o ho with hmem | ⟨hnone, hnamed⟩
  · exact hos o hmem
  · exact .inr ⟨Grows.none hn hnone, hnamed⟩

/-- Seal the tail when it is full. -/
theorem sealFullTail_drafts (htopic : validateTopic self.topic = .ok ())
    (hF : ¬ IndexPagesFit self → F (invalid "index page exceeds byte limit"))
    {n n₁ : Notes Body} {base : List String} {root : Root} {segments : List Segment} {e : Int} (hn : n.Grows n₁)
    (h : self.Carries n n₁ base root segments e) :
    self.Drafts (self.sealFullTail root) n₁
      (fun root' n' => root' = { root with tree := root'.tree, tail := root'.tail } ∧
        root'.tail.length < pageEntries ∧ self.Carries n n' base root' segments e) F := by
  obtain ⟨os, hindexed, hos⟩ := h
  unfold sealFullTail
  split
  · rename_i hfull
    refine drafting_mono (sealTail_drafts htopic hF hindexed hfull) ?_ fun _ => id
    rintro root' n' - ⟨tree, os', rfl, hindexed', hos'⟩
    exact ⟨rfl, by simp [pageEntries], Carries.later hn hos hindexed' hos'⟩
  · rename_i hroom
    exact drafting_pure ⟨rfl, lt_of_le_of_ne hindexed.tail_le hroom, os, hindexed, hos⟩

/-- Migration carries over the segments one by one. -/
theorem migrateSegments_drafts (htopic : validateTopic self.topic = .ok ())
    (hF : ¬ IndexPagesFit self → F (invalid "index page exceeds byte limit"))
    {n : Notes Body} {base : List String} :
    ∀ {rest done : List Segment} {n₁ : Notes Body} {root : Root} {e e' : Int},
      n.Grows n₁ → self.Carries n n₁ base root done e → SegmentTiles rest e e' →
      (∀ s ∈ rest, self.ValidSegment s) → self.Stored n.content rest →
      (∀ s ∈ rest, s.object ∉ base) → ((done ++ rest).map (·.object)).Nodup →
      self.Drafts (self.migrateSegments rest root) n₁ (fun root' n' =>
        root' = { root with tree := root'.tree, tail := root'.tail } ∧
          (Root.Compact root → Root.Compact root') ∧
          self.Carries n n' base root' (done ++ rest) e') F := by
  -- over the segments that are left, with those that are in the index already
  intro rest
  induction rest with
  | nil =>
    intro done n₁ root e e' hn h htiles _ _ _ _
    obtain rfl : e = e' := htiles
    exact drafting_pure ⟨rfl, id, by simpa using h⟩
  | cons s rest ih =>
    intro done n₁ root e e' hn h htiles hvalid hstored hapart hnodup
    obtain ⟨hbase, -, hrest⟩ := htiles
    -- a full tail goes into the tree first
    refine drafting_bind (drafting_mono (sealFullTail_drafts htopic hF hn h)
      (fun r n₂ hn₂ hr => And.intro hn₂ hr) fun _ => id) ?_
    rintro root₁ n₂ - ⟨hn₂, hroot₁, hroom, os, hindexed, hos⟩
    obtain ⟨bytes, hbytes⟩ := hstored s (by simp)
    have hbytes₂ : self.StoredSegment n₂.content s bytes :=
      hbytes.mono (by rw [hbytes.body, (hn.trans hn₂).content _ _ hbytes.body])
    -- the legacy manifest lists each object once, and none of the new pages has its name
    have hnew : s.object ∉ os ++ done.map (·.object) := by
      rw [List.mem_append, not_or]
      constructor
      · intro ho
        rcases hos _ ho with hmem | ⟨hnone, -⟩
        · exact hapart s (by simp) hmem
        · simp [hbytes.body] at hnone
      · rw [List.map_append, List.nodup_append] at hnodup
        intro hmem
        exact hnodup.2.2 _ hmem s.object (by simp) rfl
    -- the segment is put at the end of the tail
    have hpush := hindexed.push { root₁ with tail := root₁.tail ++ [s] } hroom hbase
      (hvalid s (by simp)) hbytes₂ hnew rfl rfl rfl
    refine drafting_mono (ih (hn.trans hn₂) ⟨os, hpush, hos⟩ hrest
      (fun t ht => hvalid t (by simp [ht])) (fun t ht => hstored t (by simp [ht]))
      (fun t ht => hapart t (by simp [ht])) (by simpa using hnodup)) ?_ fun _ => id
    rintro root' n' - ⟨hroot', hcompact, hcarries⟩
    refine ⟨?_, fun _ => hcompact (by simp [Root.Compact]), by simpa using hcarries⟩
    rw [hroot', hroot₁]

theorem indexed_empty (root : Root) (htree : root.tree = none) (htail : root.tail = [])
    (hstart : 0 ≤ root.startOffset) : self.Indexed content root [] [] root.startOffset where
  forest := ⟨[], by rw [htree]; exact .nil, by rw [htail]; rfl⟩
  first := by simp [htree]
  tiles := rfl
  valid := by simp
  stored := by intro s hs; simp at hs
  nodup := by simp
  start_nonneg := hstart
  tail_le := by simp [htail]

/-- What `migrate_manifest` makes of a legacy manifest. -/
theorem migrateManifest_drafts (htopic : validateTopic self.topic = .ok ())
    (hF : ¬ IndexPagesFit self → F (invalid "index page exceeds byte limit"))
    {legacy : Manifest} {nowMs : Nat}
    (hvalid : self.validateManifest legacy = .ok ()) (hstored : self.Stored n.content legacy.segments) :
    self.Drafts (self.migrateManifest legacy nowMs) n (fun root n' =>
      self.Carries n n' [] root legacy.segments legacy.nextOffset ∧ Root.Compact root ∧
        root.schema = indexSchema ∧ root.revision = legacy.revision ∧
        root.revision = legacy.segments.length ∧ root.startOffset = 0 ∧
        root.adoptedAtMs = some nowMs ∧ root.nextOffset = legacy.nextOffset ∧
        root.producers = none) F := by
  simp only [validateManifest, bind_eq_ok, rejectIf_eq_ok, not_not, validateSegments_eq_ok] at hvalid
  obtain ⟨_, -, _, hrevision, next, ⟨htiles, hsegments, hnodup⟩, rfl⟩ := hvalid
  unfold migrateManifest
  have hempty : self.Carries n n [] { Root.empty with adoptedAtMs := some nowMs } [] 0 :=
    ⟨[], indexed_empty _ rfl rfl le_rfl, by simp⟩
  refine drafting_bind (migrateSegments_drafts htopic hF (.refl n) hempty htiles hsegments hstored
    (by simp) (by simpa using hnodup)) ?_
  rintro root n' - ⟨hroot, hcompact, os, hindexed, hos⟩
  exact drafting_pure ⟨⟨os, hindexed.congr rfl rfl rfl, hos⟩, hcompact fun _ => rfl,
    congrArg Root.schema hroot, rfl, hrevision, congrArg Root.startOffset hroot,
    congrArg Root.adoptedAtMs hroot, rfl, congrArg Root.producers hroot⟩

end PartitionLog

end Walstream.Log

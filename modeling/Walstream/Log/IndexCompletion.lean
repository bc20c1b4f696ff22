import Walstream.Log.Appending
import Walstream.Log.IndexInsertion
import Walstream.Log.IndexRebuild

/-!
# The builders of the index complete

On a store without faults, as long as nobody else writes to the partition and there are UUIDs
left, migration, rebuilding and appending come to an end and succeed. What may still stop them
is what they check themselves: the budget of a rebuild and the range of revisions.
-/

namespace Walstream.Log

open Interaction Tiling

/-- The segment is about the records of this batch. -/
def Segment.IsOf (s : Segment) (addition : List Record × Int) : Prop :=
  s.baseOffset = addition.2 ∧ s.recordCount = addition.1.length

namespace PartitionLog

variable {self : PartitionLog} {Client : Type}

/-! ## How many requests -/

/-- Whatever the store answers, the reference to a new page was validated. -/
theorem writePage_yields {page : Page} {r : PageRef} (h : Yields (self.writePage page) r) :
    self.validatePageRef r = .ok () := by
  unfold writePage at h
  obtain ⟨bounds, -, h⟩ := yields_bind h
  dsimp only at h
  split at h
  · cases h
  obtain ⟨id, -, h⟩ := yields_bind h
  obtain ⟨_, hvalid, h⟩ := yields_bind h
  obtain ⟨answer, -, h⟩ := yields_bind h
  obtain ⟨_, -, h⟩ := yields_bind h
  obtain rfl := yields_pure h
  exact yields_check hvalid

theorem insertLeaf_yields {tree leaf r : PageRef} (h : Yields (self.insertLeaf tree leaf) r) :
    self.validatePageRef r = .ok () := by
  rw [insertLeaf] at h
  split at h
  · split at h
    · cases h
    · obtain ⟨_, -, h⟩ := yields_bind h
      exact writePage_yields h
  · obtain ⟨page, -, h⟩ := yields_bind h
    split at h
    · cases h
    · split at h
      · cases h
      · split at h
        all_goals
          obtain ⟨_, -, h⟩ := yields_bind h
          exact writePage_yields h

/-- The tree of the root has a valid reference. -/
def Rooted (log : PartitionLog) (root : Root) : Prop :=
  ∀ r ∈ root.tree, log.validatePageRef r = .ok ()

theorem sealTail_yields {root root' : Root} (h : Yields (self.sealTail root) root') :
    self.Rooted root' := by
  unfold sealTail at h
  obtain ⟨leaf, hleaf, h⟩ := yields_bind h
  dsimp only at h
  split at h
  · obtain ⟨tree, htree, h⟩ := yields_bind h
    obtain rfl := yields_pure h
    rintro r ⟨rfl⟩
    exact insertLeaf_yields htree
  · obtain rfl := yields_pure h
    rintro r ⟨rfl⟩
    exact writePage_yields hleaf

theorem sealFullTail_yields {root root' : Root} (hroot : self.Rooted root)
    (h : Yields (self.sealFullTail root) root') : self.Rooted root' := by
  unfold sealFullTail at h
  split at h
  · exact sealTail_yields h
  · exact yields_pure h ▸ hroot

/-- Sealing a tail writes a leaf and inserts it. -/
theorem sealFullTail_doneWithin {root : Root} (hroot : self.Rooted root) :
    DoneWithin (self.sealFullTail root) 34 := by
  unfold sealFullTail
  split
  · unfold sealTail
    refine doneWithin_bind (n := 32) (writePage_doneWithin _) (fun leaf _ => ?_) (by omega)
    dsimp only
    split
    · rename_i tree htree
      have hlevel := (validatePageRef_eq_ok.mp (hroot tree htree)).2.1
      have hten : maxIndexLevel = 10 := rfl
      exact doneWithin_bind (n := 0) (insertLeaf_doneWithin tree leaf) (fun _ _ => doneWithin_pure)
        (by omega)
    · exact doneWithin_pure
  · exact doneWithin_pure

theorem migrateSegments_doneWithin {segments : List Segment} : ∀ {root : Root}, self.Rooted root →
    DoneWithin (self.migrateSegments segments root) (34 * segments.length) := by
  induction segments with
  | nil => exact fun _ => doneWithin_pure
  | cons s segments ih =>
    intro root hroot
    refine doneWithin_bind (sealFullTail_doneWithin hroot)
      (fun root' h => ih fun r hr => sealFullTail_yields hroot h r hr) ?_
    rw [List.length_cons]
    omega

theorem migrateSegments_yields {segments : List Segment} : ∀ {root root' : Root}, self.Rooted root →
    Yields (self.migrateSegments segments root) root' → self.Rooted root' := by
  induction segments with
  | nil => exact fun hroot h => yields_pure h ▸ hroot
  | cons s segments ih =>
    intro root root' hroot h
    obtain ⟨root₁, hsealed, h⟩ := yields_bind h
    have hroot₁ : self.Rooted { root₁ with tail := root₁.tail ++ [s] } :=
      fun r hr => sealFullTail_yields hroot hsealed r hr
    exact ih hroot₁ h

theorem rooted_empty (nowMs : Nat) : self.Rooted { Root.empty with adoptedAtMs := some nowMs } := by
  rintro r ⟨⟩

theorem migrateManifest_doneWithin (legacy : Manifest) (nowMs : Nat) :
    DoneWithin (self.migrateManifest legacy nowMs) (34 * legacy.segments.length) := by
  exact doneWithin_bind (n := 0) (migrateSegments_doneWithin (rooted_empty nowMs))
    (fun _ _ => doneWithin_pure) le_rfl

theorem migrateManifest_yields {legacy : Manifest} {nowMs : Nat} {root : Root}
    (h : Yields (self.migrateManifest legacy nowMs) root) : self.Rooted root := by
  obtain ⟨root', hroot', h⟩ := yields_bind h
  obtain rfl := yields_pure h
  exact fun r hr => migrateSegments_yields (rooted_empty nowMs) hroot' r hr

/-- Each batch may seal the tail, and it takes a UUID and a PUT of its own. -/
theorem appendAdditions_doneWithin (receivedAtMs : Nat) {additions : List (List Record × Int)} :
    ∀ {root : Root}, self.Rooted root →
      DoneWithin (self.appendAdditions receivedAtMs additions root) (36 * additions.length) := by
  induction additions with
  | nil => exact fun _ => doneWithin_pure
  | cons addition additions ih =>
    intro root hroot
    unfold appendAdditions
    refine doneWithin_bind (n := 2 + 36 * additions.length) (sealFullTail_doneWithin hroot)
      (fun root' h => ?_) (by rw [List.length_cons]; omega)
    have hroot' := sealFullTail_yields hroot h
    refine doneWithin_check_bind fun encoded _ => ?_
    rw [show 2 + 36 * additions.length = 1 + 36 * additions.length + 1 by omega]
    refine doneWithin_perform fun id => doneWithin_check_bind fun revision _ => ?_
    rw [Nat.add_comm 1]
    refine doneWithin_perform fun answer => doneWithin_orStore fun _ => ?_
    exact ih (fun r hr => hroot' r hr)

theorem writePages_doneWithin (pages : List Page) :
    DoneWithin (self.writePages pages) (2 * pages.length) := by
  induction pages with
  | nil => exact doneWithin_pure
  | cons page pages ih =>
    unfold writePages
    refine doneWithin_bind (writePage_doneWithin page) (n := 2 * pages.length)
      (fun _ _ => ?_) (by rw [List.length_cons]; omega)
    exact doneWithin_bind (n := 0) ih (fun _ _ => doneWithin_pure) le_rfl

theorem length_chunks_le {α : Type} (items : List α) (h : 1 < items.length) :
    2 * (chunks items).length ≤ items.length := by
  rw [length_chunks]
  simp only [pageEntries]
  omega

/-- Each level has at most half as many pages as the one below. -/
theorem writeBranches_doneWithin (pages : List PageRef) :
    DoneWithin (self.writeBranches pages) (2 * pages.length) := by
  induction hk : pages.length using Nat.strong_induction_on generalizing pages with
  | _ k ih =>
  rw [writeBranches]
  split
  · rename_i hmany
    have hhalf := length_chunks_le pages hmany
    refine doneWithin_bind (writePages_doneWithin _) (n := 2 * (chunks pages).length) ?_ ?_
    · rintro ⟨parents, hparents⟩ -
      rw [List.length_map] at hparents
      refine hparents ▸ ih parents.length ?_ parents rfl
      rw [hparents, ← hk]
      exact length_chunks_lt hmany
    · rw [List.length_map]
      omega
  · exact doneWithin_pure

theorem rebuildIndex_doneWithin (segments : List Segment) (startOffset nextOffset : Int)
    (maximum : Nat) :
    DoneWithin (self.rebuildIndex segments startOffset nextOffset maximum) (4 * segments.length) := by
  unfold rebuildIndex
  refine doneWithin_check_bind fun count _ => ?_
  dsimp only
  split
  · exact doneWithin_throw
  generalize hparts : chunks (segments.take ((segments.length - 1) / pageEntries * pageEntries)) =
    parts
  have hfew : parts.length ≤ segments.length := by
    rw [← hparts, length_chunks, List.length_take]
    simp only [pageEntries]
    omega
  refine doneWithin_bind (writePages_doneWithin _) (n := 2 * parts.length) ?_ ?_
  · rintro ⟨leaves, hleaves⟩ -
    rw [List.length_map] at hleaves
    refine doneWithin_bind (n := 0) (writeBranches_doneWithin leaves) (fun _ _ => doneWithin_pure) ?_
    exact hleaves ▸ le_rfl
  · rw [List.length_map]
    omega

/-! ## Completion -/

/-- The names of the UUIDs that were not handed out yet are free. -/
def FreeNames (log : PartitionLog) (b : Bucket Client Body) : Prop :=
  ∀ id ∉ b.issued, ∀ path ∈ log.names id, b.objects path = none

/-- On a store without faults the engine comes to an end, with any `count` UUIDs that were not
handed out yet. It succeeds, and it leaves all objects as they are. -/
structure Completes {α : Type} (log : PartitionLog) (cl : Client) (b : Bucket Client Body)
    (x : Engine α) (count : Nat) (Q : α → (String → Option Body) → Prop) : Prop where
  terminates : ∀ ids : List Uuid, ids.Nodup → count ≤ ids.length → (∀ id ∈ ids, id ∉ b.issued) →
    ∃ cs result b', Runs (Bucket.Executes Faults.none log.crates.size cl) b x.run cs result b' ∧
      ∀ id ∈ b'.issued, id ∈ b.issued ∨ id ∈ ids
  succeeds : ∀ cs result b',
    Runs (Bucket.Executes Faults.none log.crates.size cl) b x.run cs result b' →
    ∃ a, result = .ok a ∧ log.FreeNames b' ∧
      (∀ path body, b.objects path = some body → b'.objects path = some body) ∧ Q a b'.objects

theorem Completes.exists_run {α : Type} {cl : Client} {b : Bucket Client Body} {x : Engine α}
    {count : Nat} {Q : α → (String → Option Body) → Prop} (h : self.Completes cl b x count Q)
    {ids : List Uuid} (hnodup : ids.Nodup) (hlength : count ≤ ids.length)
    (hids : ∀ id ∈ ids, id ∉ b.issued) :
    ∃ cs a b', Runs (Bucket.Executes Faults.none self.crates.size cl) b x.run cs (.ok a) b' ∧
      self.FreeNames b' ∧ Q a b'.objects ∧ ∀ id ∈ b'.issued, id ∈ b.issued ∨ id ∈ ids := by
  obtain ⟨cs, result, b', hrun, hissued⟩ := h.terminates ids hnodup hlength hids
  obtain ⟨a, rfl, hfree, -, ha⟩ := h.succeeds cs result b' hrun
  exact ⟨cs, a, b', hrun, hfree, ha, hissued⟩

/-- Segments that an index can be built over: valid, end to end, and stored. -/
structure Contiguous (log : PartitionLog) (content : String → Option Body)
    (segments : List Segment) (start next : Int) : Prop where
  tiles : SegmentTiles segments start next
  valid : ∀ s ∈ segments, log.ValidSegment s
  stored : log.Stored content segments
  nodup : (segments.map (·.object)).Nodup
  start_nonneg : 0 ≤ start
  next_le : next ≤ i64Max

/-- The root's tree and its tail hold the segments up to `next`. -/
def Stands (log : PartitionLog) (content : String → Option Body) (root : Root)
    (segments : List Segment) (next : Int) : Prop :=
  ∃ os, log.Indexed content root os segments next

/-- An append starts from such a root or from a manifest of the first schema. -/
def StandsManifest (log : PartitionLog) (content : String → Option Body) :
    LogManifest → List Segment → Int → Prop
  | .indexed root, segments, next => log.Stands content root segments next
  | .legacy legacy, segments, next =>
    (log.validateManifest legacy = .ok () ∧ log.Stored content legacy.segments) ∧
      legacy.segments = segments ∧ legacy.nextOffset = next

theorem stands_empty {content : String → Option Body} {root : Root} (htree : root.tree = none)
    (htail : root.tail = []) (hstart : 0 ≤ root.startOffset) :
    self.Stands content root [] root.startOffset := ⟨[], indexed_empty root htree htail hstart⟩

/-- The segments under a root can be indexed anew. -/
theorem Stands.contiguous {content : String → Option Body} {root : Root}
    {segments : List Segment} {next : Int} (h : self.Stands content root segments next)
    (hnext : next ≤ i64Max) : self.Contiguous content segments root.startOffset next :=
  let ⟨_, hindexed⟩ := h
  ⟨hindexed.tiles, hindexed.valid, hindexed.stored, (List.nodup_append.mp hindexed.nodup).2.1,
    hindexed.start_nonneg, hnext⟩

/-- A new root, for segments that reach from `start` to `next`. -/
structure Rewritten (root : Root) (start next : Int) : Prop where
  compact : Root.Compact root
  fields : root = { Root.empty with
    startOffset := start
    nextOffset := next
    tree := root.tree
    tail := root.tail }

section Completion

variable {cl : Client} {b : Bucket Client Body}

/-- A draft that has nothing to fail with completes. -/
theorem completes_of_drafts {α : Type} {x : Engine α} {count : Nat} {Q : α → Notes Body → Prop}
    {Q' : α → (String → Option Body) → Prop} (hfree : self.FreeNames b)
    (hdrafts : self.Drafts x ⟨b.objects, ∅⟩ Q fun _ => False) (hdone : DoneWithin x count)
    (hQ : ∀ a n', Q a n' → Q' a n'.content) : self.Completes cl b x count Q' := by
  have hnotes : Private self.names b ⟨b.objects, ∅⟩ := ⟨rfl, hfree, fun _ hpath => hpath.elim⟩
  refine ⟨fun ids hnodup hlength hids => ?_, fun cs result b' hrun => ?_⟩
  · exact hdrafts.exists_runs_from self.names_disjoint hnotes hdone hnodup hlength hids
  · obtain ⟨hok, herror⟩ := hdrafts.runs self.names_disjoint hnotes hrun
    cases result with
    | error e => exact (herror e rfl).elim
    | ok a =>
      obtain ⟨n', hgrows, hprivate, ha⟩ := hok a rfl
      refine ⟨a, rfl, hprivate.free, fun path body hbody => ?_, hprivate.content ▸ hQ a n' ha⟩
      rw [← hprivate.content]
      exact hgrows.content path body hbody

/-- A rebuild that its budget allows completes. -/
theorem rebuildIndex_completes (htopic : validateTopic self.topic = .ok ())
    (hfits : IndexPagesFit self) (hfree : self.FreeNames b) {segments : List Segment}
    {start next : Int} {maximum total : Nat} (h : self.Contiguous b.objects segments start next)
    (htotal : countPages ((segments.length - 1) / pageEntries * pageEntries / pageEntries)
      segments.length maximum = .ok total) (hle : total ≤ maximum) :
    self.Completes cl b (self.rebuildIndex segments start next maximum) (4 * segments.length)
      fun root content => Rewritten root start next ∧ self.Stands content root segments next :=
  completes_of_drafts hfree (rebuildIndex_drafts htopic (fun hbig => hbig hfits)
    (fun hmany => hmany total hle htotal) h.tiles h.valid h.stored h.nodup h.start_nonneg h.next_le)
    (rebuildIndex_doneWithin segments start next maximum)
    fun _ _ ⟨⟨os, hindexed, _⟩, hcompact, hroot⟩ => ⟨⟨hcompact, hroot⟩, os, hindexed⟩

/-- The migration of a valid manifest completes. -/
theorem migrateManifest_completes (htopic : validateTopic self.topic = .ok ())
    (hfits : IndexPagesFit self) (hfree : self.FreeNames b) {legacy : Manifest} (nowMs : Nat)
    (hvalid : self.validateManifest legacy = .ok ())
    (hstored : self.Stored b.objects legacy.segments) :
    self.Completes cl b (self.migrateManifest legacy nowMs) (34 * legacy.segments.length)
      fun root content => root.revision = legacy.revision ∧
        self.Stands content root legacy.segments legacy.nextOffset :=
  completes_of_drafts hfree (migrateManifest_drafts htopic (fun hbig => hbig hfits) hvalid hstored)
    (migrateManifest_doneWithin legacy nowMs)
    fun _ _ ⟨⟨os, hindexed, _⟩, _, _, hrevision, _⟩ => ⟨hrevision, os, hindexed⟩

/-- The root that an append starts from. -/
private theorem adoptManifest_stands (htopic : validateTopic self.topic = .ok ())
    (hfits : IndexPagesFit self) {n : Notes Body} {manifest : LogManifest}
    {segments : List Segment} {next : Int} (nowMs : Nat)
    (h : self.StandsManifest n.content manifest segments next) :
    ∃ base, self.Drafts (self.adoptManifest manifest nowMs) n (fun root n' =>
      self.Carries n n' base root segments next ∧ root.revision = manifest.revision)
      fun _ => False := by
  cases manifest with
  | legacy legacy =>
    obtain ⟨⟨hvalid, hstored⟩, rfl, rfl⟩ := h
    refine ⟨[], drafting_mono (migrateManifest_drafts htopic (fun hbig => hbig hfits) hvalid hstored)
      ?_ fun _ => id⟩
    rintro root n' - ⟨hcarries, -, -, hrevision, -⟩
    exact ⟨hcarries, hrevision⟩
  | indexed root =>
    obtain ⟨os, hindexed⟩ := h
    refine ⟨os, ?_⟩
    unfold adoptManifest
    dsimp only
    split
    · exact drafting_pure ⟨⟨os, hindexed.congr rfl rfl rfl, fun o ho => .inl ho⟩, rfl⟩
    · exact drafting_pure ⟨⟨os, hindexed, fun o ho => .inl ho⟩, rfl⟩

/-- The root that an append starts from takes the requests of a migration, if any. -/
private theorem adoptManifest_requests {content : String → Option Body} {manifest : LogManifest}
    {segments : List Segment} {next : Int} (nowMs : Nat)
    (h : self.StandsManifest content manifest segments next) :
    DoneWithin (self.adoptManifest manifest nowMs) (34 * segments.length) ∧
      ∀ root, Yields (self.adoptManifest manifest nowMs) root → self.Rooted root := by
  cases manifest with
  | legacy legacy =>
    obtain ⟨-, rfl, -⟩ := h
    exact ⟨migrateManifest_doneWithin legacy nowMs, fun _ => migrateManifest_yields⟩
  | indexed root =>
    obtain ⟨os, hindexed⟩ := h
    obtain ⟨ss, hforest, -⟩ := hindexed.forest
    have hroot : self.Rooted root := by
      intro r hr
      rw [Option.mem_def.mp hr] at hforest
      exact Forest.root_valid hforest
    unfold adoptManifest
    dsimp only
    split
    · refine ⟨doneWithin_pure, fun root' h => ?_⟩
      obtain rfl := yields_pure h
      exact hroot
    · exact ⟨doneWithin_pure, fun root' h => yields_pure h ▸ hroot⟩

/-- Admitted batches can be appended as long as their offsets and the revisions are in range. -/
theorem append_completes (htopic : validateTopic self.topic = .ok ()) (hfits : IndexPagesFit self)
    (hfree : self.FreeNames b) {manifest : LogManifest} {segments : List Segment}
    {next next' : Int} {receivedAtMs : Nat} {additions : List (List Record × Int)}
    (h : self.StandsManifest b.objects manifest segments next)
    (htiles : AdditionTiles additions next next') (hnext : next' ≤ i64Max)
    (hadmitted : ∀ a ∈ additions, ∃ fingerprint, self.Admitted (a.1, fingerprint))
    (hrevision : manifest.revision + additions.length ≤ u64Max) :
    self.Completes cl b (do
        let root ← self.appendRoot manifest receivedAtMs
        self.appendAdditions receivedAtMs additions root)
      (34 * segments.length + 34 + 36 * additions.length)
      fun root content => root.revision = manifest.revision + additions.length ∧
        ∃ added, List.Forall₂ Segment.IsOf added additions ∧
          self.Stands content root (segments ++ added) next' := by
  obtain ⟨base, hadopt⟩ := adoptManifest_stands htopic hfits (n := ⟨b.objects, ∅⟩) receivedAtMs h
  -- without faults and with fitting pages the draft has no reason to fail
  have hdrafts : self.Drafts (do
        let root ← self.appendRoot manifest receivedAtMs
        self.appendAdditions receivedAtMs additions root) ⟨b.objects, ∅⟩
      (fun root n' => root.revision = manifest.revision + additions.length ∧
        ∃ added, List.Forall₂ Segment.IsOf added additions ∧
          self.Stands n'.content root (segments ++ added) next') fun _ => False := by
    -- the manifest becomes a root, and a full tail is sealed
    unfold appendRoot
    rw [bind_assoc]
    refine drafting_bind (drafting_mono hadopt (fun r n₁ hn₁ hr => And.intro hn₁ hr) fun _ => id) ?_
    rintro root₁ n₁ - ⟨hn₁, hcarries₁, hrevision₁⟩
    refine drafting_bind (drafting_mono (sealFullTail_drafts htopic (fun hbig => hbig hfits) hn₁
      hcarries₁) (fun r n₂ hn₂ hr => And.intro hn₂ hr) fun _ => id) ?_
    rintro root₂ n₂ - ⟨hn₂, hroot₂, -, hcarries₂⟩
    have hsame : root₂.revision = manifest.revision := by rw [hroot₂]; exact hrevision₁
    have hstart : 0 ≤ next := by
      obtain ⟨_, hindexed, -⟩ := hcarries₂
      exact hindexed.start_nonneg.trans hindexed.tiles.le
    -- the batches are entered, each with a revision of its own
    refine drafting_mono (appendAdditions_drafts htopic (fun hbig => hbig hfits) (hn₁.trans hn₂)
      hcarries₂ hstart htiles hnext hadmitted fun hmany => ?_) ?_ fun _ => id
    · omega
    · rintro root n' - ⟨added, hentered⟩
      obtain ⟨os, hindexed, -⟩ := hentered.carries
      refine ⟨by rw [hentered.revision, hsame], added, ?_, os, hindexed⟩
      exact hentered.holds.flip.imp fun s a ⟨_, hof, _⟩ => ⟨hof.base, hof.count⟩
  -- the number of requests is counted along the same three steps
  refine completes_of_drafts hfree hdrafts ?_ fun _ _ => id
  obtain ⟨hdone, hrooted⟩ := adoptManifest_requests receivedAtMs h
  unfold appendRoot
  rw [bind_assoc, Nat.add_assoc]
  refine doneWithin_bind hdone (fun root hroot => ?_) le_rfl
  refine doneWithin_bind (sealFullTail_doneWithin (hrooted root hroot)) (fun root' hroot' => ?_) le_rfl
  exact appendAdditions_doneWithin receivedAtMs (sealFullTail_yields (hrooted root hroot) hroot')

/-- No builder fails, on a store without faults and while nobody else is at work: a rebuild
within its budget, the migration of a valid manifest, and the append of admitted batches to
either kind of manifest. -/
structure BuildersComplete (log : PartitionLog) (cl : Client) (b : Bucket Client Body) : Prop where
  rebuild : ∀ segments start next maximum total, log.Contiguous b.objects segments start next →
    countPages ((segments.length - 1) / pageEntries * pageEntries / pageEntries) segments.length
      maximum = .ok total → total ≤ maximum →
    log.Completes cl b (log.rebuildIndex segments start next maximum) (4 * segments.length)
      fun root content => Rewritten root start next ∧ log.Stands content root segments next
  migrate : ∀ (legacy : Manifest) nowMs, log.validateManifest legacy = .ok () →
    log.Stored b.objects legacy.segments →
    log.Completes cl b (log.migrateManifest legacy nowMs) (34 * legacy.segments.length)
      fun root content => root.revision = legacy.revision ∧
        log.Stands content root legacy.segments legacy.nextOffset
  append : ∀ manifest segments next next' receivedAtMs additions,
    log.StandsManifest b.objects manifest segments next →
    AdditionTiles additions next next' → next' ≤ i64Max →
    (∀ a ∈ additions, ∃ fingerprint, log.Admitted (a.1, fingerprint)) →
    manifest.revision + additions.length ≤ u64Max →
    log.Completes cl b (do
        let root ← log.appendRoot manifest receivedAtMs
        log.appendAdditions receivedAtMs additions root)
      (34 * segments.length + 34 + 36 * additions.length)
      fun root content => root.revision = manifest.revision + additions.length ∧
        ∃ added, List.Forall₂ Segment.IsOf added additions ∧
          log.Stands content root (segments ++ added) next'

theorem builders_complete (htopic : validateTopic self.topic = .ok ()) (hfits : IndexPagesFit self)
    (hfree : self.FreeNames b) : self.BuildersComplete cl b where
  rebuild _ _ _ _ _ := rebuildIndex_completes htopic hfits hfree
  migrate _ := migrateManifest_completes htopic hfits hfree
  append _ _ _ _ _ _ := append_completes htopic hfits hfree

end Completion

end PartitionLog

end Walstream.Log

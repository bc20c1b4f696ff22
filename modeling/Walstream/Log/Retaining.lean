import Walstream.Log.Appending
import Walstream.Log.IndexRebuild

/-!
# The drafts of a maintenance pass

A pass traces the whole manifest, decides what expires, and builds the root that replaces
the manifest. Traced completely, a coherent manifest yields its segments and exactly the
objects it reaches; the new root stands for a suffix of the segments and the same producers.
-/

namespace Walstream.Log

open Interaction Tiling

namespace PartitionLog

/-! ## What expires -/

/-- The bytes of the segments. -/
def segmentBytes (segments : List Segment) : Nat := (segments.map (·.byteLength)).sum

/-- Segment `k` is young enough, and from it on the bytes are within the limit. -/
def KeepsFrom (options : MaintenanceOptions) (adoption nowMs : Nat) (segments : List Segment)
    (k : Nat) : Prop :=
  ∃ segment, segments[k]? = some segment ∧ ageExpired options adoption nowMs segment = false ∧
    sizeExpired options (segmentBytes (segments.drop k)) = false

/-- Retention keeps the suffix from `k` on, the first position it may keep. -/
structure Retains (options : MaintenanceOptions) (adoption nowMs : Nat) (segments : List Segment)
    (k : Nat) : Prop where
  le : k ≤ segments.length
  keeps : k < segments.length → KeepsFrom options adoption nowMs segments k
  least : ∀ i < k, ¬ KeepsFrom options adoption nowMs segments i

/-- The expiry loop finds the first position that may be kept. -/
theorem expire_spec (options : MaintenanceOptions) (adoption nowMs : Nat) (segments : List Segment) :
    Retains options adoption nowMs segments
        (expire options adoption nowMs segments (segmentBytes segments)).1 ∧
      (expire options adoption nowMs segments (segmentBytes segments)).2 =
        segmentBytes (segments.drop
          (expire options adoption nowMs segments (segmentBytes segments)).1) := by
  -- over the segments, with the bytes that are left
  induction segments with
  | nil => exact ⟨⟨le_rfl, fun h => absurd h (by simp [expire]), by simp [expire]⟩, rfl⟩
  | cons segment segments ih =>
    have hrest : segmentBytes (segment :: segments) - segment.byteLength = segmentBytes segments := by
      simp [segmentBytes]
    -- the first position may be kept when neither limit is exceeded
    have hkeep : KeepsFrom options adoption nowMs (segment :: segments) 0 ↔
        ageExpired options adoption nowMs segment = false ∧
          sizeExpired options (segmentBytes (segment :: segments)) = false := by
      simp [KeepsFrom]
    rw [expire]
    split
    · rename_i hkept
      exact ⟨⟨Nat.zero_le _, fun _ => hkeep.mpr hkept, by simp⟩, rfl⟩
    -- the first segment has expired, and the rest is as for the remaining segments
    · rename_i hexpired
      rw [hrest]
      obtain ⟨⟨hle, hkeeps, hleast⟩, hbytes⟩ := ih
      generalize hout : expire options adoption nowMs segments (segmentBytes segments) = out at *
      refine ⟨⟨by simpa using hle, fun hlt => ?_, fun i hi => ?_⟩, by simpa using hbytes⟩
      · have := hkeeps (by simpa using hlt)
        simpa [KeepsFrom] using this
      · cases i with
        | zero => exact fun h => hexpired (hkeep.mp h)
        | succ i =>
          have := hleast i (by simpa using hi)
          simpa [KeepsFrom] using this

variable {self : PartitionLog} {n : Notes Body} {F : LogError → Prop} {m : LogManifest}
  {objects : List String} {v : LogState}

/-! ## Tracing -/

/-- The record objects of the segments are found one by one. -/
theorem traceSegments_drafts (htopic : validateTopic self.topic = .ok ()) {maximum : Nat}
    {Q : LiveGraph → Notes Body → Prop} :
    ∀ {segments : List Segment} {graph : LiveGraph}, self.Stored n.content segments →
      (segments.map (·.object) ++ graph.objects).Nodup →
      (maximum < segments.length + graph.objects.length → F (.maintenanceBudget maximum)) →
      (∀ found, (∀ o, o ∈ found ↔ o ∈ segments.map (·.object) ++ graph.objects) →
        Q ⟨graph.segments, found⟩ n) →
      self.Drafts (self.traceSegments maximum segments graph) n Q F := by
  intro segments
  -- over the segments, each of which is another object
  induction segments with
  | nil => exact fun _ _ _ hQ => drafting_pure (hQ _ (by simp))
  | cons s segments ih =>
    intro graph hstored hnodup hF hQ
    obtain ⟨bytes, hbytes⟩ := hstored s (by simp)
    obtain ⟨id, hid⟩ := hbytes.named
    have hpath : self.crates.pathFrom s.object = s.object :=
      self.pathFrom_named htopic ⟨id, hid ▸ self.segmentPath_mem id⟩
    simp only [List.map_cons, List.cons_append, List.nodup_cons, List.mem_append, not_or] at hnodup
    unfold traceSegments
    dsimp only
    split
    · exact drafting_throw (hF (by rw [List.length_cons]; omega))
    -- the object was not found before
    · rw [if_neg hnodup.1.2]
      · have hbody : n.content (self.crates.pathFrom s.object) = some (.raw bytes) := by
          rw [hpath, hbytes.body]
        -- it is there with the size that the segment tells
        refine drafts_head hbody ?_
        have hsize : self.crates.size (.raw bytes) = s.byteLength := hbytes.length
        rw [hsize]
        split
        · rename_i hne
          exact absurd rfl hne
        · refine ih (fun t ht => hstored t (by simp [ht])) ?_ (fun hmany => hF ?_) ?_
          · refine List.nodup_middle.mpr (List.nodup_cons.mpr ⟨?_, hnodup.2⟩)
            simpa using hnodup.1
          · simp only [List.length_cons] at hmany ⊢
            omega
          · intro found hfound
            refine hQ found fun o => (hfound o).trans ?_
            simp only [List.mem_append, List.mem_cons, List.map_cons]
            tauto

/-- **A complete trace** of a coherent manifest finds its segments and what it reaches. -/
theorem traceManifest_drafts (htopic : validateTopic self.topic = .ok ()) {maximum : Nat}
    (hF : F (.maintenanceBudget maximum)) (h : self.Coherent n.content m objects v) :
    self.Drafts (self.traceManifest m maximum) n (fun graph n' =>
      graph.segments = v.segments ∧ (∀ o, o ∈ graph.objects ↔ o ∈ objects) ∧ n' = n) F := by
  unfold traceManifest
  -- a legacy manifest has record objects only
  cases m with
  | legacy m =>
    have hstate := h.state
    subst hstate
    refine traceSegments_drafts htopic h.stored ?_ (fun _ => hF) fun found hfound => ⟨rfl, fun o => ?_, rfl⟩
    · simpa using (validateManifest_eq_ok.mp h.valid).2.2.2.2
    · rw [hfound, h.objects]
      simp
  -- an indexed one has pages of the index and of the directory as well
  | indexed root =>
    obtain ⟨os, ps, hindexed, hdirectory, heq⟩ := h.pages
    obtain ⟨ss, hforest, hss⟩ := hindexed.forest
    have hnodup := h.nodup
    rw [heq] at hnodup
    obtain ⟨hnodupLeft, hnodupPs, hapart⟩ := List.nodup_append.mp hnodup
    obtain ⟨hnodupOs, hnodupSegments, hapartOs⟩ := List.nodup_append.mp hnodupLeft
    have hperm : (ps ++ os.reverse).Perm (os ++ ps) :=
      List.perm_append_comm.trans ((List.reverse_perm os).append_right ps)
    -- the index first, and then the directory
    have htrace : self.Drafts (self.traceIndex root ⟨[], []⟩ maximum) n
        (fun graph n' => graph = ⟨v.segments, os.reverse⟩ ∧ n' = n) F := by
      unfold traceIndex
      refine drafting_bind (traceIndexLoop_drafts hforest (by simpa using hnodupOs) hF
        (Q := fun graph n' => graph = ⟨ss, os.reverse⟩ ∧ n' = n) ⟨by simp, rfl⟩) ?_
      rintro graph n' - ⟨rfl, hn⟩
      rw [hn]
      dsimp only
      split
      · exact drafting_throw hF
      · exact drafting_pure ⟨by rw [hss], rfl⟩
    refine drafting_bind htrace ?_
    rintro graph n' - ⟨rfl, hn⟩
    rw [hn]
    refine drafting_bind (traceProducers_drafts hF hdirectory (hperm.nodup_iff.mpr ?_)
      (Q := fun graph n' => graph.segments = v.segments ∧ (∀ o, o ∈ graph.objects ↔ o ∈ os ++ ps) ∧
        graph.objects.Nodup ∧ n' = n) fun found hfound hfoundNodup =>
        ⟨rfl, fun o => (hfound o).trans hperm.mem_iff, hfoundNodup, rfl⟩) ?_
    -- the pages of the two differ
    · refine List.nodup_append.mpr ⟨hnodupOs, hnodupPs, ?_⟩
      rintro o ho o' ho' rfl
      exact hapart o (List.mem_append_left _ ho) o ho' rfl
    · rintro graph n' - ⟨hsegments, hobjects, hnodupGraph, hn⟩
      rw [hn]
      dsimp only
      rw [hsegments]
      refine traceSegments_drafts htopic h.stored_segments ?_ (fun _ => hF) fun found hfound =>
        ⟨hsegments, fun o => ?_, rfl⟩
      -- and so do the record objects
      · refine List.nodup_append.mpr ⟨hnodupSegments, hnodupGraph, ?_⟩
        rintro o ho o' ho' rfl
        rcases List.mem_append.mp ((hobjects o).mp ho') with hos | hps
        · exact hapartOs o hos o ho rfl
        · exact hapart o (List.mem_append_right _ ho) o hps rfl
      · rw [hfound, heq]
        simp only [List.mem_append, hobjects]
        tauto

/-! ## The plan -/

theorem removableBytes_eq_error {removable : Inventory} {total : Nat} {x : LogError}
    (h : removableBytes removable total = .error x) : x = .offsetOverflow := by
  induction removable generalizing total with
  | nil => cases h
  | cons entry removable ih =>
    rw [removableBytes, bind_eq_error] at h
    rcases h with h | ⟨total', -, h⟩
    · exact (okOr_eq_error.mp h).2.symm
    · exact ih h

/-- What a plan fixes: the retained suffix, and what may be deleted. -/
structure Planned (options : MaintenanceOptions) (nowMs : Nat) (inventory : Inventory)
    (m : LogManifest) (graph : LiveGraph) (plan : RetentionPlan) (k : Nat) : Prop where
  retains : Retains options (adoptionTime m nowMs) nowMs graph.segments k
  adoption : plan.adoption = adoptionTime m nowMs
  retained : plan.retained = graph.segments.drop k
  startOffset : plan.startOffset = (graph.segments[k]?.map (·.baseOffset)).getD m.nextOffset
  rebuild : plan.rebuild = false → k = 0 ∧ ∃ root, m = .indexed root
  removable : ∀ entry ∈ plan.removable, entry ∈ inventory
  report_start : plan.report.startOffset = plan.startOffset

theorem planRetention_eq_ok {options : MaintenanceOptions} {nowMs : Nat} {inventory : Inventory}
    {graph : LiveGraph} {plan : RetentionPlan}
    (h : self.planRetention options nowMs inventory m graph = .ok plan) :
    ∃ k, Planned options nowMs inventory m graph plan k := by
  obtain ⟨hretains, -⟩ := expire_spec options (adoptionTime m nowMs) nowMs graph.segments
  unfold planRetention at h
  simp only [bind_eq_ok, pure, Except.pure, Except.ok.injEq] at h
  obtain ⟨bytes, -, rfl⟩ := h
  refine ⟨_, hretains, rfl, rfl, rfl, fun hrebuild => ?_, fun entry hentry => ?_, rfl⟩
  · simp only [Bool.or_eq_false_iff, decide_eq_false_iff_not, not_not] at hrebuild
    refine ⟨hrebuild.1, ?_⟩
    cases m with
    | legacy m => simp at hrebuild
    | indexed root => exact ⟨root, rfl⟩
  · exact List.mem_of_mem_filter hentry

theorem planRetention_eq_error {options : MaintenanceOptions} {nowMs : Nat} {inventory : Inventory}
    {graph : LiveGraph} {x : LogError}
    (h : self.planRetention options nowMs inventory m graph = .error x) : x = .offsetOverflow := by
  unfold planRetention at h
  simp only [bind_eq_error, pure, Except.pure, reduceCtorEq, and_false, exists_false, or_false] at h
  exact removableBytes_eq_error h

/-! ## The root -/

/-- What a pass publishes. -/
structure Rebuilt (log : PartitionLog) (n n' : Notes Body) (m : LogManifest) (nowMs : Nat)
    (objects : List String) (v : LogState) (k : Nat) (root : Root) (objects' : List String) :
    Prop where
  coherent : log.CoherentRoot n'.content root objects' (v.retain k)
  objects : ∀ o ∈ objects', o ∈ objects ∨ n.content o = none ∧ log.Named o
  renewed : Renewed m nowMs 1 root
  size : log.crates.size (.manifest (.indexed root)) ≤ maxManifestBytes

/-- The index of the new root, before the other fields are set. -/
private theorem retainedIndex_drafts (htopic : validateTopic self.topic = .ok ())
    (hF : ∀ x, Excused self x → F x) (maximum : Nat) {options : MaintenanceOptions} {nowMs : Nat}
    {inventory : Inventory} {graph : LiveGraph} {plan : RetentionPlan} {k : Nat}
    (h : self.Coherent n.content m objects v) (hgraph : graph.segments = v.segments)
    (hplan : Planned options nowMs inventory m graph plan k) :
    ∃ os ps, self.Directory n.content v.next m.producers ps v.producers ∧ ps.Nodup ∧
      (∀ o ∈ os, o ∈ objects) ∧ (∀ o ∈ ps, o ∈ objects) ∧
      (∀ s ∈ v.segments, s.object ∉ ps) ∧ (∀ o ∈ os, o ∉ ps) ∧
      self.Drafts (self.retainedIndex m plan maximum) n (fun root n' =>
        self.Carries n n' os root (v.retain k).segments v.next ∧ Root.Compact root ∧
          root.startOffset = (v.retain k).start ∧ root.nextOffset = v.next) F := by
  have hstart : plan.startOffset = (v.retain k).start := by
    rw [hplan.startOffset, hgraph, ← h.next_eq]
    rfl
  have hretained : plan.retained = (v.retain k).segments := by
    rw [hplan.retained, hgraph]
    rfl
  have htiles := h.tiles
  -- the index is rebuilt, or kept as it is
  by_cases hrebuild : plan.rebuild = true
  · obtain ⟨ps, hdirectory, hnodup, hobjects, hapart⟩ := h.directory
    refine ⟨[], ps, hdirectory, hnodup, by simp, hobjects, hapart, by simp, ?_⟩
    unfold retainedIndex
    rw [if_pos hrebuild, ← h.next_eq, hretained, hstart]
    refine drafting_mono (rebuildIndex_drafts htopic
      (fun hbig => hF _ (excused_of_page hbig _))
      (fun _ => hF _ (excused_of_not_damage (by simp [LogError.Damage]))) (htiles.drop k)
      (fun s hs => h.valid_segments s (List.mem_of_mem_drop hs))
      (fun s hs => h.stored_segments s (List.mem_of_mem_drop hs)) ?_
      (h.start_nonneg.trans (htiles.start_le k)) h.fits_next) ?_ fun _ h => h
    -- the segments that are left still have different objects
    · exact h.nodup_segments.sublist ((List.drop_sublist _ _).map _)
    · rintro root n' - ⟨hcarries, hcompact, hroot⟩
      exact ⟨hcarries, hcompact, congrArg Root.startOffset hroot, congrArg Root.nextOffset hroot⟩
  · obtain ⟨rfl, root, rfl⟩ := hplan.rebuild (by simpa using hrebuild)
    obtain ⟨os, ps, hindexed, hdirectory, heq⟩ := h.pages
    have hnodup := h.nodup
    rw [heq] at hnodup
    obtain ⟨hnodupLeft, hnodupPs, hapart⟩ := List.nodup_append.mp hnodup
    refine ⟨os, ps, h.next ▸ hdirectory, hnodupPs, fun o ho => ?_, fun o ho => ?_, fun s hs hmem => ?_,
      fun o ho hmem => ?_, ?_⟩
    · rw [heq]; simp [ho]
    · rw [heq]; simp [ho]
    · exact hapart _ (List.mem_append_right _ (List.mem_map_of_mem hs)) _ hmem rfl
    · exact hapart _ (List.mem_append_left _ ho) _ hmem rfl
    · unfold retainedIndex
      rw [if_neg hrebuild]
      -- with nothing expired the start stays
      have hzero : (v.retain 0).start = v.start := by
        have hdrop := htiles.drop 0
        rcases hsegments : v.segments with _ | ⟨s, rest⟩
        · rw [hsegments] at htiles
          have : v.start = v.next := htiles
          simp [LogState.retain, hsegments, this]
        · rw [hsegments] at htiles
          have : s.baseOffset = v.start := htiles.head
          simp [LogState.retain, hsegments, this]
      refine drafting_pure ⟨⟨os, by simpa [LogState.retain] using hindexed, fun o ho => .inl ho⟩,
        h.valid.tail_nonempty, ?_, h.next.symm⟩
      rw [hzero]
      exact h.start.symm

/-- The root of a pass stands for the retained suffix and the same producers. -/
theorem maintenanceRoot_drafts (htopic : validateTopic self.topic = .ok ())
    (hF : ∀ x, Excused self x → F x) {options : MaintenanceOptions} {nowMs maximum : Nat}
    {inventory : Inventory} {graph : LiveGraph} {plan : RetentionPlan} {k : Nat}
    (h : self.Coherent n.content m objects v) (hgraph : graph.segments = v.segments)
    (hplan : Planned options nowMs inventory m graph plan k) :
    self.Drafts (self.maintenanceRoot m plan maximum) n
      (fun root n' => ∃ objects', self.Rebuilt n n' m nowMs objects v k root objects') F := by
  obtain ⟨os, ps, hdirectory, hnodupPs, hos, hps, hsegmentsPs, hosPs, hindex⟩ :=
    retainedIndex_drafts htopic hF maximum h hgraph hplan
  unfold maintenanceRoot
  -- the index first, and then the fields that a pass sets
  refine drafting_bind (drafting_mono hindex (fun r n₁ hn₁ hr => And.intro hn₁ hr) fun _ h => h) ?_
  rintro root n' - ⟨hn, ⟨os', hindexed, hos'⟩, hcompact, hstart, hnext⟩
  refine drafts_check_bind (fun revision hrevision => ?_) fun x hx => ?_
  -- there is a next revision
  · rw [okOr_eq_ok, checkedAddU64_eq_some] at hrevision
    obtain ⟨hrevisionLe, rfl⟩ := hrevision
    dsimp only
    generalize hroot : ({ root with
      schema := indexSchema
      revision := m.revision + 1
      adoptedAtMs := some plan.adoption
      producers := m.producers } : Root) = root'
    have hindexed' : self.Indexed n'.content root' os' (v.retain k).segments v.next :=
      hindexed.congr (by rw [← hroot]) (by rw [← hroot]) (by rw [← hroot])
    have hcount : (v.retain k).segments.length ≤ root'.revision := by
      have := h.count
      rw [← hroot]
      simp only [LogState.retain, List.length_drop]
      omega
    have hgrove : self.Directory n'.content root'.nextOffset root'.producers ps v.producers := by
      rw [← hroot]
      simp only [hnext]
      exact Grove.grows hdirectory hn
    -- the planned root is valid
    have hvalid : self.ValidRoot root' := by
      refine hindexed'.validRoot (by rw [← hroot]) (by rw [← hroot]; simp) (by rw [← hroot]; exact hnext)
        h.fits_next (fun r hr => ?_) hcount (fun hnil => ?_)
      · exact Grove.roots_valid hgrove r (by simpa using hr)
      · rw [← hroot] at hnil ⊢
        exact hcompact hnil
    refine drafts_check_bind_ok (b := ()) (validateRoot_eq_ok.mpr hvalid) ?_
    -- the root may be too large for its page
    split
    · rename_i hlarge
      refine drafting_throw (hF _ fun fits => ?_)
      refine absurd (fits.root root' hvalid fun s hs => ?_) (not_le.mpr hlarge)
      obtain ⟨ss, -, hss⟩ := hindexed'.forest
      obtain ⟨_, hbytes⟩ := hindexed'.stored s (by rw [hss]; exact List.mem_append_right _ hs)
      exact hbytes.named
    · rename_i hsmall
      refine drafting_pure ⟨os' ++ (v.retain k).segments.map (·.object) ++ ps, ⟨hvalid, ⟨os', ps,
        hindexed', hgrove, rfl⟩, ?_, ?_, ?_, h.fits_next, h.ids_fit, hcount, ?_⟩, ?_, ?_,
        not_lt.mp hsmall⟩
      -- what the root reaches are different objects
      · refine List.nodup_append.mpr ⟨hindexed'.nodup, hnodupPs, ?_⟩
        rintro o ho o' ho' rfl
        rcases List.mem_append.mp ho with ho | ho
        · rcases hos' o ho with hmem | ⟨hnone, -⟩
          · exact hosPs o hmem ho'
          · exact Grove.content_ne_none hdirectory ho' hnone
        · obtain ⟨s, hs, rfl⟩ := List.mem_map.mp ho
          exact hsegmentsPs s (List.mem_of_mem_drop hs) ho'
      · rw [← hroot]
        exact hstart.symm
      · rw [← hroot]
        exact hnext.symm
      · rw [← hroot]
        exact hrevisionLe
      -- all of them were reached before, or are new
      · intro o ho
        rcases List.mem_append.mp ho with ho | ho
        · rcases List.mem_append.mp ho with ho | ho
          · exact (hos' o ho).imp_left (hos o)
          · obtain ⟨s, hs, rfl⟩ := List.mem_map.mp ho
            exact .inl (h.object_mem (List.mem_of_mem_drop hs))
        · exact .inl (hps o ho)
      · rw [← hroot]
        exact ⟨rfl, congrArg some hplan.adoption, rfl⟩
  · obtain ⟨-, rfl⟩ := okOr_eq_error.mp hx
    exact hF _ (excused_of_not_damage (by simp [LogError.Damage]))

end PartitionLog

end Walstream.Log

import Walstream.Log.CheckErrors
import Walstream.Log.FetchSafety
import Walstream.Log.Retaining

/-!
# Confirmed publications

A run of `maintain` may publish several roots, and may fail in many places afterwards. This
module looks at its transcripts, whatever the store and the other clients do: which
publications were acknowledged (`Acknowledged`), and what the report of the run says about
them (`Truthful`). A report is truthful exactly when no publication that may or may not have
taken effect follows an acknowledged one (`Obscured`).
-/

namespace Walstream.Log

open Interaction Tiling

/-! ## Errors of one pass -/

/-- The error is not that of a maintenance which was left incomplete. -/
def LogError.Plain : LogError → Prop
  | .maintenanceIncomplete _ _ => False
  | _ => True

theorem LogError.plain_mundane : Mundane LogError.Plain :=
  ⟨fun _ => trivial, fun _ => trivial, trivial, fun _ => trivial⟩

namespace PartitionLog

variable {self : PartitionLog}

/-! ## Preparatory work -/

variable (self) in
/-- Whatever the program is answered, it does not touch what is published, and its errors are
not those of an incomplete maintenance. -/
def Prepares {α : Type} (x : Engine α) : Prop := Obeys self.Quiet LogError.Plain x

theorem loadManifestOf_prepares (partition : Int) :
    self.Prepares (self.loadManifestOf partition) :=
  self.loadManifestOf_obeys LogError.plain_mundane (fun _ => trivial) partition

theorem staleMissing_prepares (version : Option UpdateVersion) (error : LogError) :
    self.Prepares (self.staleMissing version error) :=
  self.staleMissing_obeys LogError.plain_mundane (fun _ => trivial) version error

theorem requirePartition_prepares : self.Prepares self.requirePartition := by
  have hmetadata : self.Prepares self.loadTopicMetadata :=
    self.loadTopicMetadata_obeys LogError.plain_mundane fun _ => trivial
  have htopic : FailsWith LogError.Plain (validateTopic self.topic) := by
    unfold validateTopic
    split <;> simp [LogError.Plain]
  have hcount : self.Prepares self.topicPartitionCount := by
    unfold topicPartitionCount
    refine obeys_bind (obeys_check htopic) fun _ => obeys_bind hmetadata fun metadata => ?_
    cases metadata with
    | some metadata => exact obeys_pure
    | none => exact obeys_bind (loadManifestOf_prepares 0) fun _ => obeys_pure
  unfold requirePartition
  refine obeys_bind hcount fun count => ?_
  cases count with
  | none => exact obeys_throw trivial
  | some count =>
    apply obeys_check
    unfold validatePartition
    split <;> simp [LogError.Plain]

theorem inventory_prepares (maximum : Nat) : self.Prepares (self.inventory maximum) :=
  self.inventory_obeys LogError.plain_mundane trivial fun _ => trivial

theorem traceManifest_prepares (manifest : LogManifest) (maximum : Nat) :
    self.Prepares (self.traceManifest manifest maximum) :=
  self.traceManifest_obeys LogError.plain_mundane trivial (fun _ => trivial) (fun _ => trivial)
    manifest

theorem maintenanceRoot_prepares (hp : 0 ≤ self.partition) (manifest : LogManifest)
    (plan : RetentionPlan) (maximum : Nat) :
    self.Prepares (self.maintenanceRoot manifest plan maximum) :=
  self.maintenanceRoot_obeys LogError.plain_mundane trivial (quiet_grants hp) trivial manifest plan

/-! ## What a pass publishes -/

theorem traceProducersLoop_yields {maximum : Nat} {nextOffset : Int} {pending : List ProducerRef}
    {graph graph' : LiveGraph}
    (h : Yields (self.traceProducersLoop maximum nextOffset pending graph) graph') :
    graph'.segments = graph.segments := by
  -- on the weight of the stack: a page is replaced by its children
  induction hweight : stackWeight (pending.map (·.level)) using Nat.strong_induction_on
    generalizing pending graph with
  | _ weight ih =>
  subst hweight
  cases pending with
  | nil =>
    rw [traceProducersLoop] at h
    rw [yields_pure h]
  | cons r pending =>
    rw [traceProducersLoop] at h
    obtain ⟨entered, hentered, h⟩ := yields_bind h
    obtain ⟨-, -, rfl⟩ := insert_eq_ok.mp (yields_check hentered)
    obtain ⟨⟨page, hpage⟩, -, h⟩ := yields_bind h
    cases page with
    -- the producers of a leaf are no segments
    | leaf producers =>
      have hrest := ih _ (stackWeight_lt_cons r.level _) h rfl
      exact hrest
    -- the children weigh less than their branch
    | branch children =>
      have hlt := stackWeight_children (self.checkProducerPage_levels hpage).1
        (self.checkProducerPage_levels hpage).2
      have hweight : stackWeight ((children.reverse ++ pending).map (·.level)) <
          stackWeight ((r :: pending).map (·.level)) := by
        rw [List.map_append, stackWeight_append, List.map_cons, stackWeight_cons]
        omega
      have hrest := ih _ hweight h rfl
      exact hrest

theorem traceSegments_yields {maximum : Nat} {segments : List Segment} {graph graph' : LiveGraph}
    (h : Yields (self.traceSegments maximum segments graph) graph') :
    graph'.segments = graph.segments := by
  induction segments generalizing graph with
  | nil => rw [yields_pure h]
  | cons s segments ih =>
    unfold traceSegments at h
    dsimp only at h
    split at h
    · exact absurd h not_yields_throw
    split at h
    · exact absurd h not_yields_throw
    obtain ⟨answer, -, h⟩ := yields_bind h
    obtain ⟨size, -, h⟩ := yields_bind h
    split at h
    · exact absurd h not_yields_throw
    · have hrest := ih h
      exact hrest

/-- The segments of a root that was traced tile its range. -/
theorem traceManifest_yields {root : Root} {maximum : Nat} {graph : LiveGraph}
    (hroot : self.ValidRoot root)
    (h : Yields (self.traceManifest (.indexed root) maximum) graph) :
    SegmentTiles graph.segments root.startOffset root.nextOffset := by
  unfold traceManifest at h
  obtain ⟨traced, htraced, h⟩ := yields_bind h
  obtain ⟨entered, hentered, h⟩ := yields_bind h
  obtain ⟨segments, hsegments, htiles, -⟩ := traceIndex_yields hroot htraced
  rw [traceSegments_yields h, traceProducersLoop_yields hentered, hsegments]
  exact htiles

theorem rebuildIndex_yields {segments : List Segment} {startOffset nextOffset : Int}
    {maximum : Nat} {root : Root}
    (h : Yields (self.rebuildIndex segments startOffset nextOffset maximum) root) :
    root.startOffset = startOffset ∧ root.nextOffset = nextOffset := by
  unfold rebuildIndex at h
  obtain ⟨count, -, h⟩ := yields_bind h
  dsimp only at h
  split at h
  · exact absurd h not_yields_throw
  obtain ⟨leaves, -, h⟩ := yields_bind h
  obtain ⟨pages, -, h⟩ := yields_bind h
  rw [yields_pure h]
  exact ⟨rfl, rfl⟩

theorem planRetention_report {options : MaintenanceOptions} {nowMs : Nat} {inventory : Inventory}
    {m : LogManifest} {graph : LiveGraph} {plan : RetentionPlan}
    (h : self.planRetention options nowMs inventory m graph = .ok plan) :
    plan.report.applied = false ∧ plan.report.collectedObjects = 0 ∧
      plan.report.nextOffset = m.nextOffset := by
  unfold planRetention at h
  simp only [bind_eq_ok, pure, Except.pure, Except.ok.injEq] at h
  obtain ⟨bytes, -, rfl⟩ := h
  exact ⟨rfl, rfl, rfl⟩

/-- The root that is to be published has the range of the report. -/
theorem maintenanceRoot_yields {options : MaintenanceOptions} {nowMs : Nat}
    {inventory : Inventory} {m : LogManifest} {graph : LiveGraph} {plan : RetentionPlan}
    {maximum : Nat} {root : Root}
    (hvalid : ∀ root, m = .indexed root →
      SegmentTiles graph.segments root.startOffset root.nextOffset)
    (hplan : self.planRetention options nowMs inventory m graph = .ok plan)
    (h : Yields (self.maintenanceRoot m plan maximum) root) :
    plan.report.startOffset = root.startOffset ∧ plan.report.nextOffset = root.nextOffset := by
  obtain ⟨-, -, hnext⟩ := planRetention_report hplan
  obtain ⟨k, hplanned⟩ := planRetention_eq_ok hplan
  unfold maintenanceRoot at h
  obtain ⟨index, hindex, h⟩ := yields_bind h
  obtain ⟨revision, -, h⟩ := yields_bind h
  obtain ⟨_, -, h⟩ := yields_bind h
  have hrange : plan.startOffset = index.startOffset ∧ m.nextOffset = index.nextOffset := by
    unfold retainedIndex at hindex
    split at hindex
    · obtain ⟨hstart, hnext⟩ := rebuildIndex_yields hindex
      exact ⟨hstart.symm, hnext.symm⟩
    · rename_i hrebuild
      obtain ⟨rfl, old, rfl⟩ := hplanned.rebuild (by simpa using hrebuild)
      obtain rfl := yields_pure hindex
      refine ⟨?_, rfl⟩
      -- nothing has expired, so that the first segment begins where the root begins
      rw [hplanned.startOffset]
      have htiles := hvalid index rfl
      cases hsegments : graph.segments with
      | nil =>
        rw [hsegments] at htiles
        exact (tiles_nil.mp htiles).symm
      | cons s segments =>
        rw [hsegments] at htiles
        exact htiles.head
  dsimp only at h
  split at h
  · exact absurd h not_yields_throw
  · rw [yields_pure h, hplanned.report_start, hnext]
    exact hrange

/-! ## What a transcript shows -/

/-- What a client of the store says and hears. -/
abbrev Transcript := List (Exchange (Cmd Body) Resp)

variable (self) in
/-- The store has acknowledged that this root is published. -/
def Acknowledges (root : Root) (t : Exchange (Cmd Body) Resp) : Prop :=
  ∃ mode version, t = ⟨.put self.manifestPath (.manifest (.indexed root)) mode, .ok version⟩

variable (self) in
/-- A publication that may or may not have taken effect. -/
def LeavesOpen (t : Exchange (Cmd Body) Resp) : Prop :=
  ∃ body mode e, ¬ StoreError.IsRefusal e ∧ t = ⟨.put self.manifestPath body mode, .error e⟩

/-- An object is deleted, or may be. -/
def Deletes (t : Exchange (Cmd Body) Resp) : Prop := ∃ path, t.command = .delete path

variable (self) in
/-- After an acknowledged publication, another one may or may not have taken effect. -/
def Obscured (log : Transcript) : Prop :=
  ∃ before t after, log = before ++ t :: after ∧ self.LeavesOpen t ∧
    ∃ u ∈ before, ∃ root, self.Acknowledges root u

/-- The report says that this root was published, and gives its readable range. -/
def Describes (report : MaintenanceReport) (root : Root) : Prop :=
  report.applied = true ∧ report.startOffset = root.startOffset ∧
    report.nextOffset = root.nextOffset

/-- What the outcome of a run has to say about its publications. -/
structure Truthful (p : PartitionLog) (log : Transcript) (r : Except LogError MaintenanceReport) :
    Prop where
  /-- An error does not hide a publication that was acknowledged. -/
  confirmed : ∀ x, r = .error x → (∃ t ∈ log, ∃ root, p.Acknowledges root t) →
    ∃ report source, x = .maintenanceIncomplete report source ∧
      ∃ t ∈ log, ∃ root, p.Acknowledges root t ∧ Describes report root
  /-- Objects were collected only after the publication of the root that the report describes
  was acknowledged. -/
  collected : ∀ report, (r = .ok report ∨ ∃ source, r = .error (.maintenanceIncomplete report source)) →
    0 < report.collectedObjects → ∃ before t after root, log = before ++ t :: after ∧
      p.Acknowledges root t ∧ Describes report root ∧ ∀ u ∈ before, ¬ Deletes u

variable (self) in
/-- Nothing is published, or said to be, and nothing is deleted. -/
def Calm (log : Transcript) : Prop := ∀ t ∈ log, self.Quiet t.command

theorem Calm.not_acknowledges {log : Transcript} (h : self.Calm log) {t : Exchange (Cmd Body) Resp}
    (ht : t ∈ log) {root : Root} : ¬ self.Acknowledges root t := by
  rintro ⟨mode, version, rfl⟩
  exact h _ ht rfl

theorem Calm.not_leavesOpen {log : Transcript} (h : self.Calm log) {t : Exchange (Cmd Body) Resp}
    (ht : t ∈ log) : ¬ self.LeavesOpen t := by
  rintro ⟨body, mode, e, -, rfl⟩
  exact h _ ht rfl

theorem Calm.not_deletes {log : Transcript} (h : self.Calm log) {t : Exchange (Cmd Body) Resp}
    (ht : t ∈ log) : ¬ Deletes t := by
  rintro ⟨path, hpath⟩
  have hquiet := h _ ht
  rw [hpath] at hquiet
  exact hquiet

/-! ## One pass -/

variable (self) in
/-- The publication of this root is acknowledged in this exchange. -/
def published (root : Root) (mode : PutMode Body) (version : Body) : Exchange (Cmd Body) Resp :=
  ⟨.put self.manifestPath (.manifest (.indexed root)) mode, .ok version⟩

variable (self) in
/-- What a pass has said and heard, and how it ended. -/
inductive Told : Transcript → Except LogError Pass → Prop where
  /-- The pass only looks, or looks at what is already gone. -/
  | calm {log : Transcript} (calm : self.Calm log) (r : Except LogError Pass)
      (quiet : r = .ok (.retry none) ∨ (∃ report, r = .ok (.finished report) ∧
        report.collectedObjects = 0) ∨ ∃ x, r = .error x ∧ x.Plain) : Told log r
  /-- Someone else has published in between. -/
  | refused {log : Transcript} (calm : self.Calm log) (root : Root) (mode : PutMode Body)
      {e : StoreError} (refusal : e.IsRefusal) :
      Told (log ++ [⟨.put self.manifestPath (.manifest (.indexed root)) mode, .error e⟩])
        (.ok (.retry none))
  /-- The publication may have taken effect. -/
  | uncertain {log : Transcript} (calm : self.Calm log) (root : Root) (mode : PutMode Body)
      {e : StoreError} (failure : ¬ e.IsRefusal) (report : MaintenanceReport)
      (unapplied : report.applied = false) (uncollected : report.collectedObjects = 0) :
      Told (log ++ [⟨.put self.manifestPath (.manifest (.indexed root)) mode, .error e⟩])
        (.error (incomplete report (.objectStore e)))
  /-- The root is published, and its objects are already gone. -/
  | lost {before after : Transcript} (calm : self.Calm before) (root : Root) (mode : PutMode Body)
      (version : Body) (calm' : self.Calm after) (report : MaintenanceReport)
      (describes : Describes report root) (uncollected : report.collectedObjects = 0) :
      Told (before ++ self.published root mode version :: after) (.ok (.retry (some report)))
  /-- The root is published, and the pass ends. -/
  | ended {before after : Transcript} (calm : self.Calm before) (root : Root) (mode : PutMode Body)
      (version : Body) (settled : ∀ t ∈ after, ¬ self.LeavesOpen t) (report : MaintenanceReport)
      (describes : Describes report root) (r : Except LogError Pass)
      (tells : r = .ok (.finished report) ∨ ∃ source, r = .error (incomplete report source)) :
      Told (before ++ self.published root mode version :: after) r

/-- A deletion never publishes anything. -/
theorem collect_talks {live : LiveGraph} {removable : Inventory} {report : MaintenanceReport}
    {log : Transcript} {r : Except LogError MaintenanceReport} {root : Root}
    (hreport : Describes report root)
    (h : (self.collect live removable report).run.Talks log r) :
    (∀ t ∈ log, ¬ self.LeavesOpen t) ∧ ∃ report', Describes report' root ∧
      (r = .ok report' ∨ ∃ source, r = .error (incomplete report' source)) := by
  -- over the names that are left, whatever the report says so far
  induction removable generalizing report log with
  | nil =>
    obtain ⟨rfl, rfl⟩ := talks_run_pure h
    exact ⟨by simp, report, hreport, .inl rfl⟩
  | cons entry removable ih =>
    unfold collect at h
    split at h
    -- a name that is alive is kept
    · exact ih hreport h
    obtain ⟨answer, rest, rfl, hgo⟩ := talks_run_perform h
    -- the deletion is counted, and publishes nothing
    have hcounted : Describes { report with
        collectedObjects := report.collectedObjects + 1
        collectedBytes := report.collectedBytes + entry.2 } root := hreport
    have hdelete : ¬ self.LeavesOpen ⟨.delete (self.crates.pathFrom entry.1), answer⟩ := by
      rintro ⟨body, mode, e, -, heq⟩
      cases heq
    have hrest : ∀ {rest : Transcript}, (∀ t ∈ rest, ¬ self.LeavesOpen t) →
        ∀ t ∈ ⟨.delete (self.crates.pathFrom entry.1), answer⟩ :: rest, ¬ self.LeavesOpen t :=
      fun hall => List.forall_mem_cons.mpr ⟨hdelete, hall⟩
    split at hgo
    -- deleted, or absent already
    · obtain ⟨hall, hend⟩ := ih hcounted hgo
      exact ⟨hrest hall, hend⟩
    · obtain ⟨hall, hend⟩ := ih hcounted hgo
      exact ⟨hrest hall, hend⟩
    -- the failed deletion ends the pass
    · obtain ⟨rfl, rfl⟩ := talks_run_throw hgo
      exact ⟨hrest (by simp), report, hreport, .inr ⟨_, rfl⟩⟩

/-- A pass after its publication. -/
theorem collectPublished_told {root : Root} {version : Body} {plan : RetentionPlan}
    {maximum : Nat} {before log : Transcript} {mode : PutMode Body} {r : Except LogError Pass}
    (hcalm : self.Calm before) (hstart : plan.report.startOffset = root.startOffset)
    (hnext : plan.report.nextOffset = root.nextOffset) (hzero : plan.report.collectedObjects = 0)
    (h : (self.collectPublished root version plan maximum).run.Talks log r) :
    self.Told (before ++ self.published root mode version :: log) r := by
  have hdescribes : Describes { plan.report with applied := true } root := ⟨rfl, hstart, hnext⟩
  unfold collectPublished at h
  -- the trace publishes nothing
  obtain ⟨traced, rest, outcome, rfl, htrace, h⟩ := talks_run_attempt h
  obtain ⟨htraced, -⟩ := traceManifest_prepares _ _ _ _ htrace
  cases outcome with
  -- the pass has traced its root and deletes what is left over
  | ok live =>
    rcases talks_run_bind h with ⟨e, hcollect, rfl⟩ | ⟨l₁, l₂, report, rfl, hcollect, h⟩
    -- a deletion has failed
    · obtain ⟨hall, report, hreport, hr⟩ := collect_talks hdescribes hcollect
      refine .ended hcalm root mode version ?_ report hreport _ (.inr ?_)
      · exact List.forall_mem_append.mpr ⟨fun t ht => Calm.not_leavesOpen htraced ht, hall⟩
      · rcases hr with hr | ⟨source, hr⟩
        · cases hr
        · exact ⟨source, by rw [Except.error.inj hr]⟩
    -- everything is deleted
    · obtain ⟨rfl, rfl⟩ := talks_run_pure h
      obtain ⟨hall, report', hreport, hr⟩ := collect_talks hdescribes hcollect
      obtain rfl : report = report' := by
        rcases hr with hr | ⟨source, hr⟩
        · exact Except.ok.inj hr
        · cases hr
      refine .ended hcalm root mode version ?_ report hreport _ (.inl rfl)
      simp only [List.append_nil]
      exact List.forall_mem_append.mpr ⟨fun t ht => Calm.not_leavesOpen htraced ht, hall⟩
  -- the trace has failed, and the manifest is looked at again
  | error error =>
    obtain ⟨looked, rest, stale, rfl, hstale, h⟩ := talks_run_attempt h
    obtain ⟨hlooked, -⟩ := staleMissing_prepares _ _ _ _ hstale
    have hboth : self.Calm (traced ++ looked) := List.forall_mem_append.mpr ⟨htraced, hlooked⟩
    have hopen : ∀ t ∈ traced ++ (looked ++ []), ¬ self.LeavesOpen t := by
      simpa using fun t ht => Calm.not_leavesOpen hboth (List.mem_append.mpr ht)
    split at h
    -- the root was replaced, so that the pass is repeated
    · obtain ⟨rfl, rfl⟩ := talks_run_pure h
      refine .lost hcalm root mode version ?_ _ hdescribes hzero
      simpa using hboth
    -- otherwise the pass ends with the report of its publication
    · obtain ⟨rfl, rfl⟩ := talks_run_throw h
      exact .ended hcalm root mode version hopen _ hdescribes _ (.inr ⟨_, rfl⟩)
    · obtain ⟨rfl, rfl⟩ := talks_run_throw h
      exact .ended hcalm root mode version hopen _ hdescribes _ (.inr ⟨_, rfl⟩)

theorem Calm.append {log log' : Transcript} (h : self.Calm log) (h' : self.Calm log') :
    self.Calm (log ++ log') := List.forall_mem_append.mpr ⟨h, h'⟩

/-- Preparatory work before it does not change what a pass has told. -/
theorem Told.prepend {before log : Transcript} {r : Except LogError Pass} (hbefore : self.Calm before)
    (h : self.Told log r) : self.Told (before ++ log) r := by
  cases h with
  | calm hcalm r quiet => exact .calm (hbefore.append hcalm) r quiet
  | refused hcalm root mode refusal =>
    rw [← List.append_assoc]
    exact .refused (hbefore.append hcalm) root mode refusal
  | uncertain hcalm root mode failure report unapplied uncollected =>
    rw [← List.append_assoc]
    exact .uncertain (hbefore.append hcalm) root mode failure report unapplied uncollected
  | lost hcalm root mode version hcalm' report describes uncollected =>
    rw [← List.append_assoc]
    exact .lost (hbefore.append hcalm) root mode version hcalm' report describes uncollected
  | ended hcalm root mode version settled report describes r tells =>
    rw [← List.append_assoc]
    exact .ended (hbefore.append hcalm) root mode version settled report describes r tells

theorem told_bind {α : Type} {x : Engine α} {f : α → Engine Pass} {log : Transcript}
    {r : Except LogError Pass} (hx : self.Prepares x)
    (hf : ∀ a, Yields x a → ∀ {log r}, (f a).run.Talks log r → self.Told log r)
    (h : (x >>= f).run.Talks log r) : self.Told log r := by
  rcases talks_run_bind h with ⟨e, hfirst, rfl⟩ | ⟨before, after, a, rfl, hbefore, hafter⟩
  · obtain ⟨hcalm, hplain⟩ := hx _ _ hfirst
    exact .calm hcalm _ (.inr (.inr ⟨e, rfl, hplain e rfl⟩))
  · exact (hf a hbefore.returns hafter).prepend (hx _ _ hbefore).1

/-- **One pass**: what it has said and heard determines how it may end. -/
theorem maintainPass_told (hp : 0 ≤ self.partition) {options : MaintenanceOptions} {nowMs : Nat}
    {log : Transcript} {r : Except LogError Pass}
    (h : (self.maintainPass options nowMs).run.Talks log r) : self.Told log r := by
  unfold maintainPass at h
  -- nothing is published until the new root is
  refine told_bind (inventory_prepares _) (fun inventory _ log r h => ?_) h
  refine told_bind (loadManifestOf_prepares _) (fun loaded hload log r h => ?_) h
  generalize hmanifest : loaded.getD LoadedManifest.empty = current at h
  obtain ⟨traced, rest, outcome, rfl, htrace, hgo⟩ := talks_run_attempt h
  refine Told.prepend (traceManifest_prepares _ _ _ _ htrace).1 ?_
  -- the first trace fails or gives the live graph
  cases outcome with
  | error error =>
    have hplain := (traceManifest_prepares _ _ _ _ htrace).2 error rfl
    refine told_bind (staleMissing_prepares _ _) (fun stale _ log r h => ?_) hgo
    cases stale with
    -- a stale view is tried again
    | true =>
      obtain ⟨rfl, rfl⟩ := talks_run_pure h
      exact .calm (by simp [Calm]) _ (.inl rfl)
    | false =>
      obtain ⟨rfl, rfl⟩ := talks_run_throw h
      exact .calm (by simp [Calm]) _ (.inr (.inr ⟨error, rfl, hplain⟩))
  | ok graph =>
    have hplainPlan : FailsWith LogError.Plain
        (self.planRetention options nowMs inventory current.manifest graph) :=
      fun e he => planRetention_eq_error he ▸ trivial
    refine told_bind (obeys_check hplainPlan) (fun plan hplan log r h => ?_) hgo
    have hplan := yields_check hplan
    obtain ⟨happlied, hzero, -⟩ := planRetention_report hplan
    dsimp only at h
    split at h
    -- a plan that is not applied is only reported
    · obtain ⟨rfl, rfl⟩ := talks_run_pure h
      exact .calm (by simp [Calm]) _ (.inr (.inl ⟨_, rfl, hzero⟩))
    refine told_bind (maintenanceRoot_prepares hp _ _ _) (fun root hroot log r h => ?_) h
    -- the segments cover the range of the root
    have htiles : ∀ root, current.manifest = .indexed root →
        SegmentTiles graph.segments root.startOffset root.nextOffset := by
      intro root hroot
      have hvalid := loaded_valid hload
      rw [hmanifest, hroot] at hvalid
      rw [hroot] at htrace
      exact traceManifest_yields hvalid htrace.returns
    obtain ⟨hstart, hnext⟩ := maintenanceRoot_yields htiles hplan hroot
    -- the publication decides what the pass may say
    obtain ⟨answer, rest, rfl, hgo⟩ := talks_run_perform h
    have hnil : self.Calm [] := by simp [Calm]
    split at hgo
    -- it was acknowledged
    · exact collectPublished_told hnil hstart hnext hzero hgo
    · obtain ⟨rfl, rfl⟩ := talks_run_pure hgo
      -- it was refused
      exact .refused hnil root _ trivial
    · obtain ⟨rfl, rfl⟩ := talks_run_pure hgo
      exact .refused hnil root _ trivial
    -- nobody knows whether the store has it
    · rename_i e hprecondition hexists
      obtain ⟨rfl, rfl⟩ := talks_run_throw hgo
      refine .uncertain hnil root _ ?_ _ happlied hzero
      cases e with
      | precondition => exact absurd rfl hprecondition
      | alreadyExists => exact absurd rfl hexists
      | notFound => exact id
      | generic => exact id

/-! ## All passes -/

/-- The passes so far have ended in `continue`, and `last` is the report of the last root that
one of them has published. -/
structure Proceeds (p : PartitionLog) (log : Transcript) (last : Option MaintenanceReport) :
    Prop where
  settled : ∀ t ∈ log, ¬ p.LeavesOpen t
  kept : ∀ t ∈ log, ¬ Deletes t
  unpublished : last = none → ∀ t ∈ log, ∀ root, ¬ p.Acknowledges root t
  reported : ∀ report, last = some report → report.collectedObjects = 0 ∧
    ∃ t ∈ log, ∃ root, p.Acknowledges root t ∧ Describes report root

theorem acknowledges_published {root : Root} {mode : PutMode Body} {version : Body} :
    self.Acknowledges root (self.published root mode version) := ⟨mode, version, rfl⟩

theorem published_not_leavesOpen {root : Root} {mode : PutMode Body} {version : Body} :
    ¬ self.LeavesOpen (self.published root mode version) := by
  rintro ⟨_, _, _, -, heq⟩
  cases heq

theorem published_not_deletes {root : Root} {mode : PutMode Body} {version : Body} :
    ¬ Deletes (self.published root mode version) := by
  rintro ⟨_, heq⟩
  cases heq

theorem not_obscured {log : Transcript} (h : ∀ t ∈ log, ¬ self.LeavesOpen t) :
    ¬ self.Obscured log := by
  rintro ⟨before, t, after, rfl, hopen, -⟩
  exact h t (by simp) hopen

theorem Calm.proceeds {log : Transcript} (h : self.Calm log) : self.Proceeds log none where
  settled := fun _ ht => h.not_leavesOpen ht
  kept := fun _ ht => h.not_deletes ht
  unpublished := fun _ _ ht _ => h.not_acknowledges ht
  reported := nofun

theorem Proceeds.calm {log log' : Transcript} {last : Option MaintenanceReport}
    (h : self.Proceeds log last) (hcalm : self.Calm log') : self.Proceeds (log ++ log') last where
  settled := List.forall_mem_append.mpr ⟨h.settled, fun _ ht => hcalm.not_leavesOpen ht⟩
  kept := List.forall_mem_append.mpr ⟨h.kept, fun _ ht => hcalm.not_deletes ht⟩
  unpublished := fun hlast => List.forall_mem_append.mpr
    ⟨h.unpublished hlast, fun _ ht _ => hcalm.not_acknowledges ht⟩
  reported := fun report hlast => by
    obtain ⟨hzero, t, ht, hroot⟩ := h.reported report hlast
    exact ⟨hzero, t, List.mem_append_left _ ht, hroot⟩

/-- One more pass that ends in `continue`. -/
theorem Proceeds.retry {log log' : Transcript} {last p : Option MaintenanceReport}
    (h : self.Proceeds log last) (htold : self.Told log' (.ok (.retry p))) :
    self.Proceeds (log ++ log') (p.or last) := by
  cases htold with
  -- a pass without a publication adds nothing
  | calm hcalm _ quiet =>
    obtain rfl : p = none := by
      rcases quiet with heq | ⟨_, heq, -⟩ | ⟨_, heq, -⟩ <;> cases heq
      rfl
    exact h.calm hcalm
  -- a refused publication has not changed anything
  | refused hcalm root mode refusal =>
    have hbefore := h.calm hcalm
    rw [← List.append_assoc]
    refine ⟨?_, ?_, fun hlast => ?_, fun report hlast => ?_⟩
    · refine List.forall_mem_append.mpr ⟨hbefore.settled, List.forall_mem_singleton.mpr ?_⟩
      rintro ⟨_, _, _, hopen, heq⟩
      cases heq
      exact hopen refusal
    · refine List.forall_mem_append.mpr ⟨hbefore.kept, List.forall_mem_singleton.mpr ?_⟩
      rintro ⟨_, heq⟩
      cases heq
    · refine List.forall_mem_append.mpr
        ⟨hbefore.unpublished hlast, List.forall_mem_singleton.mpr ?_⟩
      rintro root ⟨_, _, heq⟩
      cases heq
    · obtain ⟨hzero, t, ht, hroot⟩ := hbefore.reported report hlast
      exact ⟨hzero, t, List.mem_append_left _ ht, hroot⟩
  -- a published root that was replaced is remembered with its report
  | lost hcalm root mode version hcalm' report describes uncollected =>
    have hbefore := h.calm hcalm
    rw [← List.append_assoc]
    refine ⟨?_, ?_, nofun, fun report' hlast => ?_⟩
    · exact List.forall_mem_append.mpr ⟨hbefore.settled, List.forall_mem_cons.mpr
        ⟨published_not_leavesOpen, fun _ ht => hcalm'.not_leavesOpen ht⟩⟩
    · exact List.forall_mem_append.mpr ⟨hbefore.kept, List.forall_mem_cons.mpr
        ⟨published_not_deletes, fun _ ht => hcalm'.not_deletes ht⟩⟩
    · obtain rfl : report = report' := Option.some.inj hlast
      exact ⟨uncollected, self.published root mode version, by simp, root, acknowledges_published,
        describes⟩
  -- such a pass does not end in `continue`
  | ended hcalm root mode version settled report describes r tells =>
    rcases tells with heq | ⟨_, heq⟩ <;> cases heq

/-- The outcome of `maintain_at`, when the last pass has failed. -/
def concludes (last : Option MaintenanceReport) (x : LogError) : LogError :=
  match x, last with
  | .maintenanceIncomplete report source, _ => .maintenanceIncomplete report source
  | x, some report => incomplete report x
  | x, none => x

/-- The publication that a report describes was acknowledged, and nothing was deleted before. -/
private theorem truthful_of_published {before after : Transcript} {root : Root}
    {mode : PutMode Body} {version : Body} {report : MaintenanceReport}
    {r : Except LogError MaintenanceReport} (hkept : ∀ t ∈ before, ¬ Deletes t)
    (hreport : Describes report root)
    (hr : r = .ok report ∨ ∃ source, r = .error (.maintenanceIncomplete report source)) :
    self.Truthful (before ++ self.published root mode version :: after) r where
  confirmed := by
    rintro x rfl -
    rcases hr with heq | ⟨source, heq⟩
    · cases heq
    · cases heq
      exact ⟨report, source, rfl, self.published root mode version, by simp, root,
        acknowledges_published, hreport⟩
  collected := by
    intro report' hr' _
    have heq : report' = report := by
      rcases hr with rfl | ⟨source, rfl⟩ <;> rcases hr' with heq | ⟨source', heq⟩ <;> cases heq
      · rfl
      · rfl
    subst heq
    exact ⟨before, _, after, root, rfl, acknowledges_published, hreport, hkept⟩

theorem Proceeds.finish {log log' : Transcript} {last : Option MaintenanceReport}
    {report : MaintenanceReport} (h : self.Proceeds log last)
    (htold : self.Told log' (.ok (.finished report))) :
    self.Truthful (log ++ log') (.ok report) ∧ ¬ self.Obscured (log ++ log') := by
  cases htold with
  | calm hcalm _ quiet =>
    have hzero : report.collectedObjects = 0 := by
      rcases quiet with heq | ⟨_, heq, hzero⟩ | ⟨_, heq, -⟩ <;> cases heq
      exact hzero
    refine ⟨⟨nofun, fun report' hr hpos => ?_⟩, not_obscured (h.calm hcalm).settled⟩
    rcases hr with heq | ⟨_, heq⟩
    · cases heq
      omega
    · cases heq
  | ended hcalm root mode version settled report' describes _ tells =>
    have hbefore := h.calm hcalm
    obtain rfl : report' = report := by
      rcases tells with heq | ⟨_, heq⟩ <;> cases heq
      rfl
    rw [← List.append_assoc]
    refine ⟨truthful_of_published hbefore.kept describes (.inl rfl), not_obscured ?_⟩
    exact List.forall_mem_append.mpr ⟨hbefore.settled, List.forall_mem_cons.mpr
      ⟨published_not_leavesOpen, settled⟩⟩

/-- A failed pass tells the truth unless it leaves open what became of its publication, after an
acknowledged one. -/
theorem Proceeds.fail {log log' : Transcript} {last : Option MaintenanceReport} {x : LogError}
    (h : self.Proceeds log last) (htold : self.Told log' (.error x)) :
    self.Truthful (log ++ log') (.error (concludes last x)) ↔ ¬ self.Obscured (log ++ log') := by
  cases htold with
  -- without a publication of its own the pass has a plain error
  | calm hcalm _ quiet =>
    have hplain : x.Plain := by
      rcases quiet with heq | ⟨_, heq, -⟩ | ⟨_, heq, hplain⟩ <;> cases heq
      exact hplain
    have hall := h.calm hcalm
    refine iff_of_true ?_ (not_obscured hall.settled)
    -- the error is told with the last report, if there is one
    cases last with
    | none =>
      have hconcludes : concludes none x = x := by
        cases x <;> rfl
      rw [hconcludes]
      refine ⟨fun _ _ hack => ?_, fun report hr => ?_⟩
      · obtain ⟨t, ht, root, hroot⟩ := hack
        exact absurd hroot (hall.unpublished rfl t ht root)
      · rcases hr with heq | ⟨_, heq⟩ <;> cases heq
        exact hplain.elim
    | some report =>
      have hconcludes : concludes (some report) x = .maintenanceIncomplete report x := by
        cases x with
        | maintenanceIncomplete => exact hplain.elim
        | _ => rfl
      rw [hconcludes]
      obtain ⟨hzero, hroot⟩ := hall.reported report rfl
      refine ⟨fun _ heq _ => ?_, fun report' hr hpos => ?_⟩
      · cases heq
        exact ⟨report, x, rfl, hroot⟩
      · rcases hr with heq | ⟨_, heq⟩ <;> cases heq
        omega
  -- the last publication is uncertain
  | @uncertain _ hcalm root mode e failure report unapplied uncollected =>
    have hbefore := h.calm hcalm
    rw [← List.append_assoc]
    show self.Truthful _ (.error (.maintenanceIncomplete report _)) ↔ _
    cases last with
    -- nothing was acknowledged before
    | none =>
      have hlast : ∀ t ∈ [(⟨.put self.manifestPath (.manifest (.indexed root)) mode, .error e⟩ :
          Exchange (Cmd Body) Resp)], ∀ root, ¬ self.Acknowledges root t := by
        refine List.forall_mem_singleton.mpr ?_
        rintro root ⟨_, _, heq⟩
        cases heq
      have hnone := List.forall_mem_append.mpr ⟨hbefore.unpublished rfl, hlast⟩
      refine iff_of_true ⟨fun _ _ hack => ?_, fun report' hr hpos => ?_⟩ ?_
      · obtain ⟨t, ht, root, hroot⟩ := hack
        exact absurd hroot (hnone t ht root)
      · rcases hr with heq | ⟨_, heq⟩ <;> cases heq
        omega
      · rintro ⟨before, t, after, heq, -, u, hu, root, hroot⟩
        exact hnone u (by rw [heq]; simp [hu]) root hroot
    -- an earlier pass has had its publication acknowledged, which the error conceals
    | some published =>
      obtain ⟨-, t, ht, root', hroot, -⟩ := hbefore.reported published rfl
      refine iff_of_false (fun htrue => ?_) (not_not.mpr ?_)
      · -- the report of the last pass does not say that anything was published
        obtain ⟨report', source, heq, _, -, _, -, happlied, -⟩ :=
          htrue.confirmed _ rfl ⟨t, List.mem_append_left _ ht, root', hroot⟩
        cases heq
        rw [unapplied] at happlied
        cases happlied
      · exact ⟨_, _, [], rfl, ⟨_, _, _, failure, rfl⟩, t, ht, root', hroot⟩
  -- the publication of this pass was acknowledged, and its report is told
  | ended hcalm root mode version settled report describes _ tells =>
    have hbefore := h.calm hcalm
    obtain ⟨source, rfl⟩ : ∃ source, x = incomplete report source := by
      rcases tells with heq | ⟨source, heq⟩ <;> cases heq
      exact ⟨source, rfl⟩
    rw [← List.append_assoc]
    refine iff_of_true (truthful_of_published hbefore.kept describes (.inr ⟨source, rfl⟩))
      (not_obscured ?_)
    exact List.forall_mem_append.mpr ⟨hbefore.settled, List.forall_mem_cons.mpr
      ⟨published_not_leavesOpen, settled⟩⟩

theorem maintainAttempts_talks (hp : 0 ≤ self.partition) {options : MaintenanceOptions}
    {nowMs attempts : Nat} {last : Option MaintenanceReport} {before log : Transcript}
    {r : Except LogError (Except LogError MaintenanceReport × Option MaintenanceReport)}
    (h : self.Proceeds before last)
    (htalks : (self.maintainAttempts options nowMs attempts last).run.Talks log r) :
    (∃ report last', r = .ok (.ok report, last') ∧ self.Truthful (before ++ log) (.ok report) ∧
      ¬ self.Obscured (before ++ log)) ∨
    ∃ x last', r = .ok (.error x, last') ∧
      (self.Truthful (before ++ log) (.error (concludes last' x)) ↔
        ¬ self.Obscured (before ++ log)) := by
  -- over the passes that are left, with the conversation so far
  induction attempts generalizing last before log with
  | zero =>
    -- no pass is left, and the call ends as if one had failed
    obtain ⟨rfl, rfl⟩ := talks_run_pure htalks
    have hexhausted : self.Told [] (.error (.contentionExhausted maxCasAttempts)) :=
      .calm (by simp [Calm]) _ (.inr (.inr ⟨_, rfl, trivial⟩))
    exact .inr ⟨_, last, rfl, h.fail hexhausted⟩
  | succ attempts ih =>
    unfold maintainAttempts at htalks
    obtain ⟨pass, rest, outcome, rfl, hpass, hgo⟩ := talks_run_attempt htalks
    -- the pass decides: finished, to be repeated, or failed
    have htold := maintainPass_told hp hpass
    split at hgo
    · obtain ⟨rfl, rfl⟩ := talks_run_pure hgo
      rw [List.append_nil]
      exact .inl ⟨_, last, rfl, h.finish htold⟩
    · rw [← List.append_assoc]
      exact ih (h.retry htold) hgo
    · obtain ⟨rfl, rfl⟩ := talks_run_pure hgo
      rw [List.append_nil]
      exact .inr ⟨_, last, rfl, h.fail htold⟩

/-- `maintain_at` after calm preparations. -/
theorem maintainAt_talks (hp : 0 ≤ self.partition) {options : MaintenanceOptions} {nowMs : Nat}
    {before log : Transcript} {r : Except LogError MaintenanceReport} (h : self.Calm before)
    (htalks : (self.maintainAt options nowMs).run.Talks log r) :
    self.Truthful (before ++ log) r ↔ ¬ self.Obscured (before ++ log) := by
  unfold maintainAt at htalks
  rcases talks_run_bind htalks with ⟨e, hfirst, -⟩ | ⟨l₁, l₂, out, rfl, hattempts, hgo⟩
  -- the attempts end with a report or with an error, never outside of the error type
  · rcases maintainAttempts_talks hp h.proceeds hfirst with ⟨_, _, heq, -⟩ | ⟨_, _, heq, -⟩
    · cases heq
    · cases heq
  rcases maintainAttempts_talks hp h.proceeds hattempts with
    ⟨report, last, heq, htruthful, hclear⟩ | ⟨x, last, heq, hiff⟩
  -- a report of the last attempt is the report of the whole pass
  · cases heq
    obtain ⟨rfl, rfl⟩ := talks_run_pure hgo
    rw [List.append_nil]
    exact iff_of_true htruthful hclear
  · cases heq
    -- the error goes on as it is, unless it can still carry the last report
    have hresult : l₂ = [] ∧ r = .error (concludes last x) := by
      cases x with
      | maintenanceIncomplete report source => exact talks_run_throw hgo
      | _ =>
        cases last with
        | none => exact talks_run_throw hgo
        | some report => exact talks_run_throw hgo
    obtain ⟨rfl, rfl⟩ := hresult
    rw [List.append_nil]
    exact hiff

/-- Before the first pass nothing is published, and no error is that of a maintenance. -/
private theorem truthful_bind {α : Type} {x : Engine α} {f : α → Engine MaintenanceReport}
    {before log : Transcript} {r : Except LogError MaintenanceReport} (hbefore : self.Calm before)
    (hx : self.Prepares x)
    (hf : ∀ a, Yields x a → ∀ {before log r}, self.Calm before → (f a).run.Talks log r →
      (self.Truthful (before ++ log) r ↔ ¬ self.Obscured (before ++ log)))
    (h : (x >>= f).run.Talks log r) :
    self.Truthful (before ++ log) r ↔ ¬ self.Obscured (before ++ log) := by
  rcases talks_run_bind h with ⟨e, hfirst, rfl⟩ | ⟨l₁, l₂, a, rfl, hfirst, hrest⟩
  · obtain ⟨hcalm, hplain⟩ := hx _ _ hfirst
    have htold : self.Told log (.error e) := .calm hcalm _ (.inr (.inr ⟨e, rfl, hplain e rfl⟩))
    have hconcludes : concludes none e = e := by
      cases e <;> rfl
    have hfail := hbefore.proceeds.fail htold
    rwa [hconcludes] at hfail
  · rw [← List.append_assoc]
    exact hf a hfirst.returns (hbefore.append (hx _ _ hfirst).1) hrest

/-- **Errors do not hide a confirmed publication**, except in the runs in which a publication
that may have taken effect follows an acknowledged one: these are exactly the runs in which the
outcome is not truthful. -/
theorem maintain_truthful_iff (log : PartitionLog) (options : MaintenanceOptions)
    (clock : Option Nat) (said : Transcript) (r : Except LogError MaintenanceReport)
    (h : (log.maintain options clock).run.Talks said r) :
    log.Truthful said r ↔ ¬ log.Obscured said := by
  -- nothing has been said, and the checks say nothing
  have hcalm : log.Calm [] := by simp [Calm]
  have hoptions : FailsWith LogError.Plain options.validate := by
    simp [MaintenanceOptions.validate, LogError.Plain]
  have htopic : FailsWith LogError.Plain (validateTopic log.topic) := by
    unfold validateTopic
    split <;> simp [LogError.Plain]
  have hpartition : FailsWith LogError.Plain (validatePartition log.partition maxTopicPartitions) := by
    unfold validatePartition
    split <;> simp [LogError.Plain]
  have hclock : FailsWith LogError.Plain (unixMillis clock) := by
    simp [unixMillis, LogError.Plain, invalid]
  rw [← List.nil_append said]
  unfold maintain at h
  refine truthful_bind hcalm (obeys_check hoptions) (fun _ _ before said r hcalm h => ?_) h
  refine truthful_bind hcalm (obeys_check htopic) (fun _ _ before said r hcalm h => ?_) h
  refine truthful_bind hcalm (obeys_check hpartition) (fun _ hvalid before said r hcalm h => ?_) h
  -- the partition is within its bounds
  have hp : 0 ≤ log.partition := by
    have hok := yields_check hvalid
    unfold validatePartition at hok
    split at hok
    · rename_i hrange
      exact hrange.1
    · cases hok
  refine truthful_bind hcalm requirePartition_prepares (fun _ _ before said r hcalm h => ?_) h
  refine truthful_bind hcalm (obeys_check hclock) (fun nowMs _ before said r hcalm h => ?_) h
  -- what is left is the loop over the passes
  exact maintainAt_talks hp hcalm h

/-! ## A publication that is hidden -/

variable (self) in
/-- The exchange acknowledges a publication. -/
def acknowledged : Exchange (Cmd Body) Resp → Bool
  | ⟨.put path (.manifest (.indexed _)) _, .ok _⟩ => path == self.manifestPath
  | _ => false

theorem acknowledges_of_acknowledged {t : Exchange (Cmd Body) Resp}
    (h : self.acknowledged t = true) : ∃ root, self.Acknowledges root t := by
  unfold acknowledged at h
  split at h
  · rename_i path root mode version
    obtain rfl : path = self.manifestPath := by simpa using h
    exact ⟨root, mode, version, rfl⟩
  · cases h

end PartitionLog

namespace Reference

/-- What a store with these objects answers, with empty listings. -/
def answer (objects : String → Option Body) : (c : Cmd Body) → Resp c
  | .get path => match objects path with
    | some body => .ok ⟨log.crates.size body, body, .ok body⟩
    | none => .error .notFound
  | .head path => match objects path with
    | some body => .ok (log.crates.size body)
    | none => .error .notFound
  | .put _ body _ => .ok body
  | .delete _ => .ok ()
  | .list _ => []
  | .newV4 => 0

/-- A log with one segment. -/
def populated (path : String) : Option Body :=
  if path = log.topicMetadataPath then some (.metadata ⟨topicMetadataSchema, 1⟩)
  else if path = log.manifestPath then some (.manifest (.indexed root))
  else if path = segment.object then some (.raw (List.replicate 69 0))
  else none

/-- The log when another client has let its segment expire. -/
def emptied (path : String) : Option Body :=
  if path = log.topicMetadataPath then some (.metadata ⟨topicMetadataSchema, 1⟩)
  else if path = log.manifestPath then
    some (.manifest (.indexed { Root.empty with revision := 3, startOffset := 1, nextOffset := 1 }))
  else none

/-- A write whose answer is lost. -/
def timeout : (c : Cmd Body) → Resp c
  | .put _ _ _ => .error .generic
  | c => answer emptied c

/-- The pass publishes a root; before it has traced it, the segment has expired. So there is
another pass. -/
def interrupted : List ((c : Cmd Body) → Resp c) :=
  List.replicate 7 (answer populated) ++ List.replicate 6 (answer emptied)

def keepAll : MaintenanceOptions := ⟨none, none, true, 1000⟩

/-- The second pass publishes, too. -/
theorem maintain_truthful_iff_interrupted : ∃ said r,
    (log.maintain keepAll (some 0)).run.Talks said r ∧ said.any log.acknowledged = true ∧
      (log.Truthful said r ↔ ¬ log.Obscured said) := by
  have hreplay : ((log.maintain keepAll (some 0)).run.replay
      (interrupted ++ [answer emptied])).any (fun p => p.1.any log.acknowledged) = true := by
    decide +kernel
  obtain ⟨⟨said, r⟩, hreplay, hack⟩ := (Option.any_eq_true _ _).mp hreplay
  have htalks := Prog.replay_talks hreplay
  exact ⟨said, r, htalks, hack,
    PartitionLog.maintain_truthful_iff log keepAll (some 0) said r htalks⟩

/-- The outcome says that nothing was applied. -/
def disowns : Except LogError MaintenanceReport → Bool
  | .error (.maintenanceIncomplete report _) => !report.applied
  | _ => false

/-- The answer to the second publication is lost: the error says that nothing was applied. -/
theorem maintain_hides_publication : ¬ ∀ (log : PartitionLog) (options : MaintenanceOptions)
    (clock : Option Nat) (said : PartitionLog.Transcript) (r : Except LogError MaintenanceReport),
    (log.maintain options clock).run.Talks said r → log.Truthful said r := by
  intro htruthful
  have hreplay : ((log.maintain keepAll (some 0)).run.replay (interrupted ++ [timeout])).any
      (fun p => p.1.any log.acknowledged && disowns p.2) = true := by
    decide +kernel
  obtain ⟨⟨said, r⟩, hreplay, hhidden⟩ := (Option.any_eq_true _ _).mp hreplay
  rw [Bool.and_eq_true, List.any_eq_true] at hhidden
  obtain ⟨⟨t, ht, hack⟩, hunapplied⟩ := hhidden
  have htrue := htruthful log keepAll (some 0) said r (Prog.replay_talks hreplay)
  change disowns r = true at hunapplied
  unfold disowns at hunapplied
  split at hunapplied
  · rename_i report source
    obtain ⟨report', source', heq, _, -, _, -, happlied, -⟩ :=
      htrue.confirmed _ rfl ⟨t, ht, PartitionLog.acknowledges_of_acknowledged hack⟩
    cases heq
    rw [happlied] at hunapplied
    cases hunapplied
  · cases hunapplied

end Reference

end Walstream.Log

import Walstream.Log.FirstRun

/-!
# Garbage collection is safe

`Reaches` follows the references of a manifest through the pages in the store, the way a reader
does. Whatever the clients do, in any order, with requests that fail, take effect unacknowledged
or take effect late: what the current manifest reaches is there, and what is deleted is an object
of the partition with a UUID for its name.
-/

namespace Walstream.Log

open Interaction PartitionLog Scene

namespace PartitionLog

variable (log : PartitionLog)

/-! ## Reachability -/

/-- The objects at and below an index page. -/
inductive ReachesIndex (content : String → Option Body) : PageRef → String → Prop where
  | page (r : PageRef) : ReachesIndex content r (log.crates.pathFrom r.object)
  | record {r : PageRef} {segments : List Segment} {s : Segment}
      (h : content (log.crates.pathFrom r.object) = some (.page (.leaf segments)))
      (hs : s ∈ segments) : ReachesIndex content r (log.crates.pathFrom s.object)
  | child {r c : PageRef} {children : List PageRef} {o : String}
      (h : content (log.crates.pathFrom r.object) = some (.page (.branch children)))
      (hc : c ∈ children) (ho : ReachesIndex content c o) : ReachesIndex content r o

/-- The objects at and below a producer page. -/
inductive ReachesProducers (content : String → Option Body) : ProducerRef → String → Prop where
  | page (r : ProducerRef) : ReachesProducers content r (log.crates.pathFrom r.object)
  | child {r c : ProducerRef} {children : List ProducerRef} {o : String}
      (h : content (log.crates.pathFrom r.object) = some (.producerPage (.branch children)))
      (hc : c ∈ children) (ho : ReachesProducers content c o) : ReachesProducers content r o

/-- The objects that a manifest reaches: record objects, index pages, producer pages. -/
inductive Reaches (content : String → Option Body) : LogManifest → String → Prop where
  | flat {m : Manifest} {s : Segment} (hs : s ∈ m.segments) :
      Reaches content (.legacy m) (log.crates.pathFrom s.object)
  | tail {root : Root} {s : Segment} (hs : s ∈ root.tail) :
      Reaches content (.indexed root) (log.crates.pathFrom s.object)
  | tree {root : Root} {r : PageRef} {o : String} (hr : r ∈ root.tree)
      (ho : log.ReachesIndex content r o) : Reaches content (.indexed root) o
  | producers {root : Root} {r : ProducerRef} {o : String} (hr : r ∈ root.producers)
      (ho : log.ReachesProducers content r o) : Reaches content (.indexed root) o

variable {log} {content : String → Option Body}

/-- A walk over the pages finds all objects below them. -/
theorem Forest.reaches {pages : List PageRef} {os : List String} {ss : List Segment}
    (h : log.Forest content pages os ss) {r : PageRef} (hr : r ∈ pages) {o : String}
    (ho : log.ReachesIndex content r o) :
    o ∈ os ∨ ∃ s ∈ ss, o = log.crates.pathFrom s.object := by
  -- along the walk: an object is reached from the first page or from one behind it
  induction h generalizing r with
  | nil => cases hr
  -- the first page is a leaf: the object is the page or one of its records
  | @leaf head pages segments rest objects hpage _ ih =>
    rcases List.mem_cons.mp hr with rfl | hr
    · cases ho with
      | page => exact .inl (by rw [hpage.path]; exact List.mem_cons_self)
      | record h hs =>
        rw [hpage.path, hpage.body] at h
        cases h
        exact .inr ⟨_, List.mem_append_left _ hs, rfl⟩
      | child h =>
        rw [hpage.path, hpage.body] at h
        cases h
    · rcases ih hr ho with ho | ⟨s, hs, rfl⟩
      · exact .inl (List.mem_cons_of_mem _ ho)
      · exact .inr ⟨s, List.mem_append_right _ hs, rfl⟩
  -- the first page is a branch: the object is the page or lies below its children
  | @branch head children pages segments objects hpage _ ih =>
    rcases List.mem_cons.mp hr with rfl | hr
    · cases ho with
      | page => exact .inl (by rw [hpage.path]; exact List.mem_cons_self)
      | record h =>
        rw [hpage.path, hpage.body] at h
        cases h
      | child h hc ho =>
        rw [hpage.path, hpage.body] at h
        cases h
        exact (ih (List.mem_append_left _ hc) ho).imp_left (List.mem_cons_of_mem _)
    · exact (ih (List.mem_append_right _ hr) ho).imp_left (List.mem_cons_of_mem _)

theorem Grove.reaches {next : Int} {pages : List ProducerRef} {os : List String}
    {ss : List ProducerState} (h : log.Grove content next pages os ss) {r : ProducerRef}
    (hr : r ∈ pages) {o : String} (ho : log.ReachesProducers content r o) : o ∈ os := by
  induction h generalizing r with
  | nil => cases hr
  | @leaf head pages states rest objects page _ ih =>
    -- the page itself, or a page below it
    rcases List.mem_cons.mp hr with rfl | hr
    · cases ho with
      | page =>
        rw [page.path]
        exact List.mem_cons_self
      | child h =>
        rw [page.path, page.body] at h
        cases h
    · exact List.mem_cons_of_mem _ (ih hr ho)
  | @branch head children pages states objects page thick _ ih =>
    rcases List.mem_cons.mp hr with rfl | hr
    · cases ho with
      | page =>
        rw [page.path]
        exact List.mem_cons_self
      | child h hc ho =>
        rw [page.path, page.body] at h
        cases h
        exact List.mem_cons_of_mem _ (ih (List.mem_append_left _ hc) ho)
    · exact List.mem_cons_of_mem _ (ih (List.mem_append_right _ hr) ho)

/-- A coherent manifest reaches no more than it stands for. -/
theorem Coherent.reaches (htopic : validateTopic log.topic = .ok ()) {m : LogManifest}
    {objects : List String} {v : LogState} (h : log.Coherent content m objects v) {o : String}
    (ho : log.Reaches content m o) : o ∈ objects := by
  have hsegment : ∀ s ∈ v.segments, log.crates.pathFrom s.object ∈ objects := by
    intro s hs
    rw [(h.filed htopic (h.object_mem hs)).2]
    exact h.object_mem hs
  -- one case for each way in which a manifest reaches an object
  cases ho with
  | flat hs =>
    have hstate := h.state
    subst hstate
    exact hsegment _ hs
  | tail hs =>
    obtain ⟨os, ps, hindexed, -, -⟩ := h.pages
    obtain ⟨ss, -, hss⟩ := hindexed.forest
    exact hsegment _ (hss ▸ List.mem_append_right _ hs)
  | tree hr ho =>
    obtain ⟨os, ps, hindexed, -, heq⟩ := h.pages
    obtain ⟨ss, hforest, hss⟩ := hindexed.forest
    rcases hforest.reaches (by simpa using hr) ho with ho | ⟨s, hs, rfl⟩
    · rw [heq]
      simp [ho]
    · exact hsegment s (hss ▸ List.mem_append_left _ hs)
  | producers hr ho =>
    obtain ⟨os, ps, -, hdirectory, heq⟩ := h.pages
    rw [heq]
    exact List.mem_append_right _ (Grove.reaches hdirectory (by simpa using hr) ho)

end PartitionLog

/-! ## Safety -/

variable {Client : Type} [DecidableEq Client]

/-- **Garbage-collection safety**: in every configuration that the clients can reach, what the
current manifest reaches exists, and what was deleted or may still be deleted is an object of
this partition's own, named by a UUID. -/
theorem Service.collection_safe (Y : Service Client) (g : Genesis Y.log)
    {cfg : Config Client (Cmd Body) Resp (Bucket Client Body) Outcome}
    (h : Y.system.Reachable g.bucket cfg) :
    (∀ o, Y.log.Reaches cfg.shared.objects (Y.log.manifestIn cfg.shared.objects) o →
      cfg.shared.objects o ≠ none) ∧
    (∀ e ∈ cfg.shared.history, e.body = none → Y.log.Filed e.path) ∧
    ∀ cl path, Request.delete cl path ∈ cfg.shared.inFlight → Y.log.Filed path := by
  obtain ⟨w, hshared, -⟩ := Y.reachable_sound h
  rw [← hshared]
  refine ⟨fun o ho => ?_, w.sound.deletions, fun cl path hdelete => ?_⟩
  · have hcoherent := w.sound.coherent_bucket
    exact hcoherent.ne_none (hcoherent.reaches g.topic ho)
  · cases w.sound.inFlight _ hdelete with
    | delete hpath _ => exact hpath

/-- Safety for the second run, in which maintenance deletes an object. -/
theorem Reference.collection_safe_first : ∃ cfg, Reference.trimming.system.Reachable
      Reference.genesis.bucket cfg ∧
    (∃ e ∈ cfg.shared.history, e.client = 3 ∧ e.body = none) ∧
    (∀ o, Reference.log.Reaches cfg.shared.objects (Reference.log.manifestIn cfg.shared.objects) o →
      cfg.shared.objects o ≠ none) ∧
    (∀ e ∈ cfg.shared.history, e.body = none → Reference.log.Filed e.path) ∧
    ∀ cl path, Request.delete cl path ∈ cfg.shared.inFlight → Reference.log.Filed path := by
  obtain ⟨cfg, hreach, -, hdeleted, -⟩ := Reference.trimming_runs
  exact ⟨cfg, hreach, hdeleted, Service.collection_safe Reference.trimming Reference.genesis hreach⟩

end Walstream.Log

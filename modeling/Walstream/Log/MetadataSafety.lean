import Walstream.Log.ProducerMap
import Walstream.Log.ProducerScan
import Walstream.Log.Uninterrupted
import Walstream.Log.Visibility

/-!
# Writers and readers agree on the metadata

Whatever the clients do, the current manifest passes the checks of its readers, every page below it
is read without an error, and no call reports malformed metadata.

- `IndexBelow`: the references below an index root.
- `Service.metadata_agrees`: the metadata of every interleaving.
-/

namespace Walstream.Log

open Interaction PartitionLog Scene

namespace PartitionLog

/-- The references below a root, as its pages have them in the store. -/
inductive IndexBelow (content : String → Option Body) (root : PageRef) : PageRef → Prop where
  | root : IndexBelow content root root
  | child {r c : PageRef} {children : List PageRef} (h : IndexBelow content root r)
      (hpage : content r.object = some (.page (.branch children))) (hc : c ∈ children) :
      IndexBelow content root c

variable {self : PartitionLog} {content : String → Option Body}

/-- A reference among those of a walk has its page, and the children of that page are among those of
another walk. -/
theorem Forest.page {pages : List PageRef} {os : List String} {ss : List Segment}
    (h : self.Forest content pages os ss) {r : PageRef} (hr : r ∈ pages) :
    ∃ page, self.StoredPage content r page ∧ ∀ children, page = .branch children →
      ∃ pages os ss, self.Forest content pages os ss ∧ ∀ c ∈ children, c ∈ pages := by
  induction h with
  | nil => cases hr
  | leaf hpage _ ih =>
    rcases List.mem_cons.mp hr with rfl | hr
    · exact ⟨_, hpage, fun _ heq => by cases heq⟩
    · exact ih hr
  | branch hpage hbelow ih =>
    rcases List.mem_cons.mp hr with rfl | hr
    · refine ⟨_, hpage, fun children heq => ?_⟩
      cases heq
      exact ⟨_, _, _, hbelow, fun c hc => List.mem_append_left _ hc⟩
    · exact ih (List.mem_append_right _ hr)

/-- Every page below the root of an index is read without an error. -/
theorem Forest.answered {root : PageRef} {os : List String} {ss : List Segment}
    (h : self.Forest content [root] os ss) {r : PageRef} (hr : IndexBelow content root r) :
    ∃ page, self.Answered content r page := by
  have hbelow : ∃ pages os ss, self.Forest content pages os ss ∧ r ∈ pages := by
    induction hr with
    | root => exact ⟨[root], os, ss, h, List.mem_singleton_self _⟩
    | @child r c children _ hbranch hc ih =>
      obtain ⟨pages, _, _, hforest, hmem⟩ := ih
      obtain ⟨page, hpage, hchildren⟩ := hforest.page hmem
      rw [hpage.body] at hbranch
      obtain ⟨pages', os', ss', hforest', hall⟩ := hchildren children (by simpa using hbranch)
      exact ⟨pages', os', ss', hforest', hall c hc⟩
  obtain ⟨pages, _, _, hforest, hmem⟩ := hbelow
  obtain ⟨page, hpage, -⟩ := hforest.page hmem
  exact ⟨page, hpage.answered⟩

/-- A page of producers that is in shape, where its reference says, is read without an error. -/
theorem Grove.page {next : Int} {pages : List ProducerRef} {os : List String}
    {ss : List ProducerState} (h : self.Grove content next pages os ss) {r : ProducerRef}
    (hr : r ∈ pages) : ∃ page, self.StoredProducerPage content next r page ∧
      ∀ children, page = .branch children →
        ∃ pages os ss, self.Grove content next pages os ss ∧ ∀ c ∈ children, c ∈ pages := by
  induction h with
  | nil => cases hr
  | leaf hpage _ ih =>
    rcases List.mem_cons.mp hr with rfl | hr
    · exact ⟨_, hpage, fun _ heq => by cases heq⟩
    · exact ih hr
  | branch hpage _ hbelow ih =>
    rcases List.mem_cons.mp hr with rfl | hr
    · refine ⟨_, hpage, fun children heq => ?_⟩
      cases heq
      exact ⟨_, _, _, hbelow, fun c hc => List.mem_append_left _ hc⟩
    · exact ih (List.mem_append_right _ hr)

/-- Every page below the root of a directory is read without an error. -/
theorem Grove.answered {next : Int} {root : ProducerRef} {os : List String}
    {ss : List ProducerState} (h : self.Grove content next [root] os ss) {r : ProducerRef}
    (hr : PageBelow content root r) : ∃ page, self.ProducerAnswered content next r page := by
  have hbelow : ∃ pages os ss, self.Grove content next pages os ss ∧ r ∈ pages := by
    induction hr with
    | root => exact ⟨[root], os, ss, h, List.mem_singleton_self _⟩
    | @child r c children _ hbranch hc ih =>
      obtain ⟨pages, _, _, hgrove, hmem⟩ := ih
      obtain ⟨page, hpage, hchildren⟩ := hgrove.page hmem
      rw [hpage.body] at hbranch
      obtain ⟨pages', os', ss', hgrove', hall⟩ := hchildren children (by simpa using hbranch)
      exact ⟨pages', os', ss', hgrove', hall c hc⟩
  obtain ⟨pages, _, _, hgrove, hmem⟩ := hbelow
  obtain ⟨page, hpage, -⟩ := hgrove.page hmem
  exact ⟨page, hpage.answered⟩

end PartitionLog

/-- The error of a call that has failed. -/
def Outcome.failure : Outcome → Option LogError
  | .appended (.error x) => some x
  | .fetched (.error x) => some x
  | .ranged (.error x) => some x
  | .maintained (.error x) => some x
  | _ => none

/-- The clock can be read: it is neither before the epoch nor beyond 64 bits of milliseconds. -/
def Op.Timed : Op → Prop
  | .append _ clock _ => clock ≠ none
  | .maintain _ clock => clock ≠ none
  | _ => True

variable {Client : Type} [DecidableEq Client]

/-- The metadata of a configuration is what its readers expect. -/
structure Agreed (Y : Service Client)
    (cfg : Config Client (Cmd Body) Resp (Bucket Client Body) Outcome) : Prop where
  /-- The manifest is accepted when it is loaded. -/
  accepted : ∀ body, cfg.shared.objects Y.log.manifestPath = some body →
    ∃ m, body = .manifest m ∧ Y.log.Accepted m
  /-- A root passes `Root::validate`. -/
  root : ∀ root, Y.log.manifestIn cfg.shared.objects = .indexed root →
    Y.log.validateRoot root = .ok ()
  /-- Every index page is read without an error. -/
  index : ∀ root, Y.log.manifestIn cfg.shared.objects = .indexed root → ∀ top ∈ root.tree, ∀ r,
    IndexBelow cfg.shared.objects top r → ∃ page, Y.log.Answered cfg.shared.objects r page
  /-- Every page of producers is read without an error. -/
  producers : ∀ root, Y.log.manifestIn cfg.shared.objects = .indexed root →
    ∀ top ∈ root.producers, ∀ r, PageBelow cfg.shared.objects top r →
      ∃ page, Y.log.ProducerAnswered cfg.shared.objects root.nextOffset r page
  /-- No call reports malformed metadata. -/
  errors : ∀ cl s out x, (Y.op cl).Timed → cfg.tasks cl = some ⟨s, .ret out⟩ →
    out.failure = some x → Fits Y.log → ¬ x.Malformed

/-- **Writers and readers agree**: in every interleaving, whatever the clients have written, the
manifest is accepted, every page below it can be read, and no call reports malformed metadata. -/
theorem Service.metadata_agrees (Y : Service Client) (g : Genesis Y.log)
    {cfg : Config Client (Cmd Body) Resp (Bucket Client Body) Outcome}
    (h : Y.system.Reachable g.bucket cfg) : Agreed Y cfg := by
  -- the world has a coherent manifest and a promise of every call
  obtain ⟨w, hshared, hpromises⟩ := Y.reachable_sound h
  have horder := w.sound.order
  have hcoherent := w.sound.coherent_bucket
  rw [Scene.manifest, show w.scene.bucket = cfg.shared from hshared] at hcoherent
  rw [show w.scene.bucket = cfg.shared from hshared] at horder
  refine ⟨horder, fun root hroot => ?_, fun root hroot top htop r hr => ?_,
    fun root hroot top htop r hr => ?_, fun cl s out x htimed htask hx hfits => ?_⟩
  -- the root is valid, and all its pages are answered
  · rw [hroot] at hcoherent
    exact validateRoot_eq_ok.mpr hcoherent.valid
  · rw [hroot] at hcoherent
    obtain ⟨os, ps, hindexed, -, -⟩ := hcoherent.pages
    obtain ⟨ss, hforest, -⟩ := hindexed.forest
    rw [Option.mem_def.mp htop] at hforest
    exact hforest.answered hr
  · rw [hroot] at hcoherent
    obtain ⟨os, ps, -, hdirectory, -⟩ := hcoherent.pages
    rw [Option.mem_def.mp htop] at hdirectory
    exact Grove.answered hdirectory hr
  -- the promise of each kind of call speaks of its own errors
  · have hpromise := hpromises cl s _ htask
    cases hop : Y.op cl with
    | append defaultPartitions clock batches =>
      rw [hop] at htimed
      rcases out with (x | result) | _ | _ | _ <;> simp only [Promise, hop] at hpromise
      · cases hx
        exact hpromise htimed hfits
      · cases hx
    | fetch offset maximumBytes allow =>
      rcases out with _ | (x | f) | _ | _ <;> simp only [Promise, hop] at hpromise
      · cases hx
        exact hpromise.1
      · cases hx
    | offsets =>
      rcases out with _ | _ | (x | range) | _ <;> simp only [Promise, hop] at hpromise
      · cases hx
        exact hpromise
      · cases hx
    | maintain options clock =>
      rw [hop] at htimed
      rcases out with _ | _ | _ | (x | report) <;> simp only [Promise, hop] at hpromise
      · cases hx
        exact hpromise htimed hfits
      · cases hx

/-- The metadata of the first run. -/
theorem Reference.metadata_agrees_first : ∃ cfg, Reference.service.system.Reachable
      Reference.genesis.bucket cfg ∧
    (∃ s report, cfg.tasks 2 = some ⟨s, .ret (.maintained (.ok report))⟩) ∧
    Agreed Reference.service cfg := by
  obtain ⟨cfg, hreach, -, -, h₂, -⟩ := Reference.service_runs
  exact ⟨cfg, hreach, h₂, Service.metadata_agrees Reference.service Reference.genesis hreach⟩

end Walstream.Log

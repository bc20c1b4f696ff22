import Walstream.Log.ProducerGrowth
import Walstream.Log.Reference
import Walstream.Log.Selecting

/-!
# The producer directory is a map

Any number of updates, each on the root the previous one returned, starting from no
directory: every update succeeds when the store does, every page stays in shape, and a
lookup finds for each id the state stored last.
-/

namespace Walstream.Log

open Interaction

namespace PartitionLog

variable {self : PartitionLog} {Client : Type} {cl : Client} {nextOffset : Int}

/-! ## Lookups only read -/

theorem readProducerPage_reads (r : ProducerRef) (nextOffset : Int) :
    Issues Cmd.Reads (self.readProducerPage r nextOffset) := by
  unfold readProducerPage
  refine issues_bind issues_check fun _ => issues_bind (issues_lift (by simp [Cmd.Reads])) fun r => ?_
  refine issues_bind ?_ fun _ => issues_check
  cases r
  · exact issues_throw _
  · exact issues_pure _

theorem producerStateFrom_reads (id nextOffset : Int) (cursor : Option ProducerRef) :
    Issues Cmd.Reads (self.producerStateFrom id nextOffset cursor) := by
  induction hlevel : cursor.elim 0 (·.level + 1) using Nat.strong_induction_on
    generalizing cursor with
  | _ level ih =>
  subst hlevel
  cases cursor with
  | none =>
    rw [producerStateFrom]
    exact issues_pure _
  | some r =>
    rw [producerStateFrom]
    dsimp only
    split
    · exact issues_pure _
    · refine issues_bind (readProducerPage_reads r nextOffset) ?_
      rintro ⟨producers | children, hpage⟩
      · exact issues_pure _
      · dsimp only
        split
        · exact issues_pure _
        · rename_i child hchild
          have := (self.checkProducerPage_branch hpage).2 child (List.mem_of_find?_eq_some hchild)
          exact ih (child.level + 1) (by simp only [Option.elim_some]; omega) (some child) rfl

/-- A lookup in a store that stands still finds the directory's state. -/
theorem producerState_evaluate {content : String → Option Body} {root : Option ProducerRef}
    {os : List String} {ss : List ProducerState} {id : Int}
    (h : self.Directory content nextOffset root os ss) :
    self.evaluate content (self.producerState root id nextOffset) =
      .ok (ss.find? (·.id = id)) := by
  have hdraft : self.Drafts (self.producerState root id nextOffset) ⟨content, ∅⟩
      (fun found _ => found = ss.find? (·.id = id)) fun _ => False :=
    producerState_drafts h rfl
  obtain ⟨found, heval, rfl⟩ | ⟨_, -, hfalse⟩ :=
    Drafts.eval hdraft (producerStateFrom_reads id nextOffset root) fun _ _ h => h
  · exact heval
  · exact hfalse.elim

/-! ## Pages -/

/-- The references below a root, as its pages have them in the store. -/
inductive PageBelow (content : String → Option Body) (root : ProducerRef) : ProducerRef → Prop where
  | root : PageBelow content root root
  | child {r c : ProducerRef} {children : List ProducerRef} (h : PageBelow content root r)
      (hpage : content r.object = some (.producerPage (.branch children))) (hc : c ∈ children) :
      PageBelow content root c

/-- A page that agrees with its reference: a sorted leaf of at most 64 states, or a branch of
2 to 64 pages of one level that do not overlap, within the exact bounds and counts. -/
inductive InShape (nextOffset : Int) (r : ProducerRef) : ProducerPage → Prop where
  | leaf {states : List ProducerState} (level : r.level = 0) (length : states.length ≤ 64)
      (valid : ∀ p ∈ states, p.validate nextOffset = .ok ()) (sorted : Sorted states)
      (first : states.head?.map (·.id) = some r.firstId)
      (last : states.getLast?.map (·.id) = some r.lastId) (count : r.count = states.length) :
      InShape nextOffset r (.leaf states)
  | branch {children : List ProducerRef}
      (length : 2 ≤ children.length ∧ children.length ≤ 64)
      (levels : ∀ c ∈ children, c.level + 1 = r.level)
      (spaced : children.Pairwise fun a b => a.lastId < b.firstId)
      (first : children.head?.map (·.firstId) = some r.firstId)
      (last : children.getLast?.map (·.lastId) = some r.lastId)
      (count : r.count = (children.map (·.count)).sum) :
      InShape nextOffset r (.branch children)

/-- The page of a reference is in the store and in shape, at a level of at most 12. -/
def ValidPage (log : PartitionLog) (content : String → Option Body) (nextOffset : Int)
    (r : ProducerRef) : Prop :=
  log.validateProducerRef r = .ok () ∧ r.level ≤ 12 ∧
    ∃ page, content r.object = some (.producerPage page) ∧ InShape nextOffset r page

variable {content : String → Option Body}

private theorem Grove.inShape {r : ProducerRef} {page : ProducerPage}
    (h : self.StoredProducerPage content nextOffset r page) : InShape nextOffset r page := by
  cases page with
  | leaf states =>
    obtain ⟨hlength, hvalid, hsorted, hfirst, hlast, hcount, hlevel⟩ := check_leaf h.check
    exact .leaf hlevel hlength (fun p hp => validate_eq_ok.mpr (hvalid p hp)) hsorted hfirst hlast
      hcount.symm
  | branch children =>
    obtain ⟨htwo, hlength, hchildren, hspaced, hfirst, hlast, hcount⟩ := check_branch h.check
    exact .branch ⟨htwo, hlength⟩ (fun c hc => (hchildren c hc).2) hspaced hfirst hlast hcount.symm

private theorem Grove.single_page {r : ProducerRef} {os : List String} {ss : List ProducerState}
    (h : self.Grove content nextOffset [r] os ss) :
    ∃ page, self.StoredProducerPage content nextOffset r page := by
  cases h with
  | leaf page _ => exact ⟨_, page⟩
  | branch page _ _ => exact ⟨_, page⟩

/-- Every page below the root of a directory is valid. -/
theorem Grove.validPages {root : ProducerRef} {os : List String} {ss : List ProducerState}
    (h : self.Grove content nextOffset [root] os ss) {r : ProducerRef}
    (hr : PageBelow content root r) : self.ValidPage content nextOffset r := by
  suffices ∃ os ss, self.Grove content nextOffset [r] os ss by
    obtain ⟨os, ss, hgrove⟩ := this
    obtain ⟨page, hpage⟩ := hgrove.single_page
    exact ⟨hpage.reference, (validateProducerRef_eq_ok.mp hpage.reference).2.2.2.2.2.1, page,
      hpage.body, Grove.inShape hpage⟩
  induction hr with
  | root => exact ⟨os, ss, h⟩
  | @child r c children _ hbranch hc ih =>
    obtain ⟨os, ss, hgrove⟩ := ih
    cases hgrove with
    | leaf page _ => simp [page.body] at hbranch
    | branch page _ hgrove =>
      obtain rfl : _ = children := by simpa [page.body] using hbranch
      obtain ⟨init, rest, rfl⟩ := List.append_of_mem hc
      rw [List.append_nil] at hgrove
      obtain ⟨os₁, os₂, ss₁, ss₂, -, -, -, hrest⟩ := hgrove.split
      obtain ⟨os₃, os₄, ss₃, ss₄, -, -, hone, -⟩ := Grove.split_head hrest
      exact ⟨os₃, ss₃, hone⟩

/-! ## How long an update takes -/

theorem readProducerPage_doneWithin (r : ProducerRef) (nextOffset : Int) :
    DoneWithin (self.readProducerPage r nextOffset) 1 :=
  doneWithin_check_bind fun _ _ =>
    doneWithin_perform fun _ => doneWithin_orStore fun _ => doneWithin_check

theorem writeProducerPage_doneWithin (page : ProducerPage) (nextOffset : Int) :
    DoneWithin (self.writeProducerPage page nextOffset) 2 := by
  unfold writeProducerPage
  refine doneWithin_check_bind fun bounds _ => doneWithin_perform fun id => ?_
  exact doneWithin_check_bind fun _ _ =>
    doneWithin_perform fun _ => doneWithin_orStore fun _ => doneWithin_pure

theorem writeProducerPages_doneWithin (nextOffset : Int) (pages : List ProducerPage) :
    DoneWithin (self.writeProducerPages nextOffset pages) (2 * pages.length) := by
  induction pages with
  | nil => exact doneWithin_pure
  | cons page pages ih =>
    unfold writeProducerPages
    refine doneWithin_bind (writeProducerPage_doneWithin page nextOffset) (fun r _ => ?_)
      (n := 2 * pages.length) (by simp; omega)
    exact doneWithin_bind (n := 0) ih (fun _ _ => doneWithin_pure) (by omega)

theorem length_splitEntries {α : Type} (entries : List α) : (splitEntries entries).length ≤ 2 := by
  unfold splitEntries
  split <;> simp

theorem ascend_doneWithin (nextOffset : Int) (path : ProducerPath) (pages : List ProducerPage)
    (hpages : pages.length ≤ 2) :
    DoneWithin (self.ascend nextOffset path pages) (4 * path.length + 6) := by
  induction path generalizing pages with
  | nil =>
    unfold ascend
    refine doneWithin_bind (writeProducerPages_doneWithin nextOffset pages) (fun refs _ => ?_)
      (n := 2) (by simp; omega)
    split
    · exact doneWithin_pure
    · exact writeProducerPage_doneWithin _ nextOffset
  | cons step path ih =>
    unfold ascend
    refine doneWithin_bind (writeProducerPages_doneWithin nextOffset pages) (fun refs _ => ?_)
      (n := 4 * path.length + 6) (by simp; omega)
    exact ih _ (by simpa using length_splitEntries _)

/-- The way down reads at most one page of each level. -/
theorem descend_doneWithin (id nextOffset : Int) (cursor : Option ProducerRef)
    (path : ProducerPath) :
    DoneWithin (self.descend id nextOffset cursor path) (cursor.elim 0 (·.level + 1)) ∧
      ∀ out, Yields (self.descend id nextOffset cursor path) out →
        out.2.length ≤ path.length + cursor.elim 0 (·.level) := by
  -- on the level of the page that is to be read
  induction hlevel : cursor.elim 0 (·.level + 1) using Nat.strong_induction_on
    generalizing cursor path with
  | _ level ih =>
  subst hlevel
  cases cursor with
  -- there is nothing to read
  | none =>
    rw [descend]
    refine ⟨doneWithin_pure, fun out h => ?_⟩
    obtain rfl := yields_pure h
    simp
  | some r =>
    rw [descend]
    simp only [Option.elim_some]
    constructor
    -- one request for the page, and one for each level below it
    · refine doneWithin_bind (n := r.level) (readProducerPage_doneWithin r nextOffset) ?_ (by omega)
      rintro ⟨producers | children, hpage⟩ -
      · exact doneWithin_pure
      · dsimp only
        split
        · exact doneWithin_pure
        · rename_i child hchild
          have := (self.checkProducerPage_branch hpage).2 child (List.mem_of_getElem? hchild)
          exact (ih (child.level + 1) (by simp only [Option.elim_some]; omega) (some child) _ rfl).1.mono
            (by omega)
    -- the path grows by one step for each branch
    · intro out h
      obtain ⟨⟨page, hpage⟩, -, h⟩ := yields_bind h
      cases page with
      | leaf producers =>
        obtain rfl := yields_pure h
        simp
      | branch children =>
        dsimp only at h
        split at h
        · obtain rfl := yields_pure h
          simp
        · rename_i child hchild
          have := (self.checkProducerPage_branch hpage).2 child (List.mem_of_getElem? hchild)
          have hlength := (ih (child.level + 1) (by simp only [Option.elim_some]; omega)
            (some child) _ rfl).2 out h
          simp only [List.length_cons, Option.elim_some] at hlength
          omega

/-- An update on a valid root is at most 67 requests. -/
theorem updateProducer_doneWithin {root : Option ProducerRef} (state : ProducerState)
    (nextOffset : Int) (hroot : ∀ r ∈ root, self.validateProducerRef r = .ok ()) :
    DoneWithin (self.updateProducer root state nextOffset) 67 := by
  have hlevel : root.elim 0 (·.level + 1) ≤ 13 ∧ root.elim 0 (·.level) ≤ 12 := by
    cases root with
    | none => simp
    | some r =>
      have : r.level ≤ maxProducerLevel := (validateProducerRef_eq_ok.mp (hroot r rfl)).2.2.2.2.2.1
      simp only [maxProducerLevel] at this
      simp only [Option.elim_some]
      omega
  obtain ⟨hdown, hpath⟩ := self.descend_doneWithin state.id nextOffset root []
  unfold updateProducer
  refine doneWithin_bind (n := 54) hdown (fun out hout => ?_) (by omega)
  have hlength := hpath out hout
  simp only [List.length_nil] at hlength
  exact (ascend_doneWithin nextOffset out.2 _ (by simpa using length_splitEntries _)).mono (by omega)

/-! ## Sequences of updates -/

/-- The UUIDs that were not handed out yet name no object. -/
def FreshNames (log : PartitionLog) (b : Bucket Client Body) : Prop :=
  ∀ id ∉ b.issued, ∀ path ∈ log.names id, b.objects path = none

/-- A run of `update_producer` that nobody interrupts, on a store without faults. -/
abbrev UpdateRun (log : PartitionLog) (cl : Client) (b : Bucket Client Body)
    (root : Option ProducerRef) (state : ProducerState) (nextOffset : Int)
    (cs : List (Cmd Body)) (result : Except LogError ProducerRef) (b' : Bucket Client Body) : Prop :=
  Runs (Bucket.Executes Faults.none log.crates.size cl) b
    (log.updateProducer root state nextOffset).run cs result b'

/-- The buckets and roots that sequences of updates with valid states lead to, as the log's
next offset grows. -/
inductive Updated (log : PartitionLog) (cl : Client) :
    Bucket Client Body → Option ProducerRef → Int → Prop where
  | start {b : Bucket Client Body} {nextOffset : Int} (hfree : log.FreshNames b) :
      Updated log cl b none nextOffset
  | update {b b' : Bucket Client Body} {root : Option ProducerRef} {r : ProducerRef}
      {state : ProducerState} {nextOffset nextOffset' : Int} {cs : List (Cmd Body)}
      (h : Updated log cl b root nextOffset) (hle : nextOffset ≤ nextOffset')
      (hnext : nextOffset' ≤ i64Max) (hid : state.id ≤ i64Max)
      (hvalid : state.validate nextOffset' = .ok ())
      (hrun : log.UpdateRun cl b root state nextOffset' cs (.ok r) b') :
      Updated log cl b' (some r) nextOffset'

/-- What a directory in private use stands for. -/
private structure Held (log : PartitionLog) (b : Bucket Client Body) (nextOffset : Int)
    (root : Option ProducerRef) (os : List String) (ss : List ProducerState) : Prop where
  fresh : log.FreshNames b
  directory : log.Directory b.objects nextOffset root os ss
  nodup : os.Nodup
  ids : IdsFit ss

private theorem Held.mono {b : Bucket Client Body} {root : Option ProducerRef} {os : List String}
    {ss : List ProducerState} {nextOffset' : Int} (h : self.Held b nextOffset root os ss)
    (hle : nextOffset ≤ nextOffset') : self.Held b nextOffset' root os ss :=
  ⟨h.fresh, Grove.mono_next h.directory hle, h.nodup, h.ids⟩

section Update

variable {b b' : Bucket Client Body} {root : Option ProducerRef} {os : List String}
  {ss : List ProducerState} {state : ProducerState} {cs : List (Cmd Body)}
  {result : Except LogError ProducerRef}

private theorem Held.notes (h : self.Held b nextOffset root os ss) :
    Private self.names b ⟨b.objects, ∅⟩ :=
  ⟨rfl, h.fresh, fun _ hpath => hpath.elim⟩

private theorem Held.drafts (htopic : validateTopic self.topic = .ok ())
    (hfits : ProducerPagesFit self) (h : self.Held b nextOffset root os ss)
    (hnext : nextOffset ≤ i64Max) (hid : state.id ≤ i64Max) (hvalid : ValidState nextOffset state) :
    self.Drafts (self.updateProducer root state nextOffset) ⟨b.objects, ∅⟩ (fun r n' =>
      self.Regrown ⟨b.objects, ∅⟩ n' nextOffset os r (upsert state ss)) fun _ => False :=
  updateProducer_drafts htopic (fun hbig => absurd hfits hbig) hnext h.directory h.nodup hvalid
    h.ids hid

/-- One update. -/
private theorem Held.update (htopic : validateTopic self.topic = .ok ())
    (hfits : ProducerPagesFit self) (h : self.Held b nextOffset root os ss)
    (hnext : nextOffset ≤ i64Max) (hid : state.id ≤ i64Max) (hvalid : ValidState nextOffset state)
    (hrun : self.UpdateRun cl b root state nextOffset cs result b') :
    ∃ r os', result = .ok r ∧ self.Held b' nextOffset (some r) os' (upsert state ss) := by
  obtain ⟨hok, herror⟩ := Drafts.runs self.names_disjoint
    (h.drafts htopic hfits hnext hid hvalid) h.notes hrun
  cases result with
  | error e => exact (herror e rfl).elim
  | ok r =>
    obtain ⟨n', -, hprivate, os', hgrove, hnodup, -⟩ := hok r rfl
    refine ⟨r, os', rfl, hprivate.free, ?_, hnodup, fun p hp => ?_⟩
    · rw [← hprivate.content]
      exact hgrove
    · rcases mem_upsert hp with rfl | hp
      · exact hid
      · exact h.ids p hp

private theorem Updated.held (htopic : validateTopic self.topic = .ok ())
    (hfits : ProducerPagesFit self) (h : Updated self cl b root nextOffset) :
    ∃ os ss, self.Held b nextOffset root os ss := by
  induction h with
  | start hfree => exact ⟨[], [], hfree, .nil, .nil, by simp [IdsFit]⟩
  | update _ hle hnext hid hvalid hrun ih =>
    obtain ⟨os, ss, hheld⟩ := ih
    obtain ⟨r', os', hr, hheld'⟩ := (hheld.mono hle).update htopic hfits hnext hid
      (validate_eq_ok.mp hvalid) hrun
    cases hr
    exact ⟨os', _, hheld'⟩

end Update

/-- **The producer directory is a map** that never runs out of shape. After any sequence of
updates with valid states, one more update runs to its end as long as 67 UUIDs are left, and
when it ends it has succeeded; every page below the new root is valid; and a lookup on the
new root finds the new state under its id, and under every other id what it found on the old
root. -/
theorem producer_directory_is_a_map (log : PartitionLog) (cl : Client)
    (htopic : validateTopic log.topic = .ok ()) (hfits : ProducerPagesFit log)
    {b : Bucket Client Body} {root : Option ProducerRef} {nextOffset : Int}
    (h : Updated log cl b root nextOffset) (state : ProducerState) (nextOffset' : Int)
    (hle : nextOffset ≤ nextOffset') (hnext : nextOffset' ≤ i64Max) (hid : state.id ≤ i64Max)
    (hvalid : state.validate nextOffset' = .ok ()) :
    (∀ ids : List Uuid, ids.Nodup → 67 ≤ ids.length → (∀ id ∈ ids, id ∉ b.issued) →
      ∃ cs result b', log.UpdateRun cl b root state nextOffset' cs result b') ∧
    ∀ cs result b', log.UpdateRun cl b root state nextOffset' cs result b' →
      ∃ r, result = .ok r ∧
        (∀ p, PageBelow b'.objects r p → log.ValidPage b'.objects nextOffset' p) ∧
        ∀ id readOffset, nextOffset' ≤ readOffset → ∃ old,
          log.evaluate b.objects (log.producerState root id readOffset) = .ok old ∧
          log.evaluate b'.objects (log.producerState (some r) id readOffset) =
            .ok (if id = state.id then some state else old) := by
  -- what was entered so far is a sorted list of states
  obtain ⟨os, ss, hheld⟩ := h.held htopic hfits
  have hnow := hheld.mono hle
  have hstate := validate_eq_ok.mp hvalid
  -- the update runs to its end, as no page is missing
  refine ⟨fun ids hnodup hlength hids => ?_, fun cs result b' hrun => ?_⟩
  · have hroot : ∀ r ∈ root, log.validateProducerRef r = .ok () := fun r hr =>
      Grove.roots_valid hnow.directory r (by simpa using hr)
    exact Drafts.exists_runs log.names_disjoint (hnow.drafts htopic hfits hnext hid hstate)
      hnow.notes (updateProducer_doneWithin state nextOffset' hroot) hnodup hlength hids
  -- what is found is what the list of after has under the id
  · obtain ⟨r, os', rfl, hheld'⟩ := hnow.update htopic hfits hnext hid hstate hrun
    refine ⟨r, rfl, fun p hp => Grove.validPages hheld'.directory hp, fun id readOffset hread => ?_⟩
    refine ⟨ss.find? (·.id = id), producerState_evaluate (hnow.mono hread).directory, ?_⟩
    rw [producerState_evaluate (hheld'.mono hread).directory,
      find_upsert state (Directory.sorted hnow.directory)]
    simp only [eq_comm]

/-! ## Sixty-five producers -/

section Reference

open Reference

/-- A producer with one batch. -/
def firstState (id : Nat) : ProducerState := ⟨id, 0, [⟨0, 1, 0, fingerprint⟩]⟩

theorem firstState_valid (id : Nat) : ValidState 1 (firstState id) where
  id_nonneg := Int.natCast_nonneg id
  epoch_nonneg := le_rfl
  nonempty := by simp [firstState]
  length_le := show 1 ≤ retryBatches by decide
  batches := by
    simp only [firstState, List.forall_mem_singleton]
    exact ⟨le_rfl, by decide, by decide, le_rfl, by decide, by decide, sha256Hex_valid _⟩
  continues := by simp [firstState, Continues]

/-- The states of the first `n` producers with even ids. -/
def evenStates (n : Nat) : List ProducerState := (List.range n).map fun i => firstState (2 * i)

theorem upsert_evenStates (n : Nat) : upsert (firstState (2 * n)) (evenStates n) = evenStates (n + 1) := by
  have hlast : ∀ ss : List ProducerState, (∀ p ∈ ss, p.id < 2 * n) →
      upsert (firstState (2 * n)) ss = ss ++ [firstState (2 * n)] := by
    intro ss hss
    induction ss with
    | nil => rfl
    | cons p ss ih =>
      rw [upsert, if_pos (by simpa [firstState] using hss p (by simp)),
        ih fun q hq => hss q (by simp [hq]), List.cons_append]
  rw [hlast, evenStates, evenStates, List.range_succ, List.map_append, List.map_singleton]
  intro p hp
  obtain ⟨i, hi, rfl⟩ := List.mem_map.mp hp
  have := List.mem_range.mp hi
  simp only [firstState]
  omega

/-- The UUIDs for the `n`th update. -/
def pool (n : Nat) : List Uuid := (List.range' (67 * n) 67).map (BitVec.ofNat 128)

theorem mem_pool {n : Nat} {id : Uuid} (hn : n ≤ 100) (h : id ∈ pool n) :
    67 * n ≤ id.toNat ∧ id.toNat < 67 * (n + 1) := by
  obtain ⟨i, hi, rfl⟩ := List.mem_map.mp h
  rw [List.mem_range'_1] at hi
  rw [BitVec.toNat_ofNat, Nat.mod_eq_of_lt (by omega)]
  omega

theorem pool_nodup {n : Nat} (hn : n ≤ 100) : (pool n).Nodup := by
  refine List.Nodup.map_on (fun i hi j hj heq => ?_) List.nodup_range'
  rw [List.mem_range'_1] at hi hj
  have := congrArg BitVec.toNat heq
  rwa [BitVec.toNat_ofNat, BitVec.toNat_ofNat, Nat.mod_eq_of_lt (by omega),
    Nat.mod_eq_of_lt (by omega)] at this

/-- The directory after as many updates. -/
private theorem updated_evenStates {n : Nat} (hn : n ≤ 100) :
    ∃ (b : Bucket Unit Body) (root : Option ProducerRef) (os : List String),
      Updated log () b root 1 ∧ log.Held b 1 root os (evenStates n) ∧
      ∀ id ∈ b.issued, id.toNat < 67 * n := by
  -- over the updates, each of which takes 67 ids of its own
  induction n with
  | zero =>
    have hfree : log.FreshNames (.initial (fun _ => none) ∅ : Bucket Unit Body) :=
      fun _ _ _ _ => rfl
    exact ⟨_, none, [], .start hfree, ⟨hfree, .nil, .nil, by simp [IdsFit, evenStates]⟩,
      fun _ hid => hid.elim⟩
  | succ n ih =>
    obtain ⟨b, root, os, hupdated, hheld, hissued⟩ := ih (by omega)
    have hid : (firstState (2 * n)).id ≤ i64Max := by simp only [firstState, i64Max]; omega
    have hvalid := firstState_valid (2 * n)
    have hroot : ∀ r ∈ root, log.validateProducerRef r = .ok () := fun r hr =>
      Grove.roots_valid hheld.directory r (by simpa using hr)
    -- enough ids are left for one more
    obtain ⟨cs, result, b', hrun, hdrawn⟩ := Drafts.exists_runs_from log.names_disjoint
      (hheld.drafts topic_valid fits.1 (by decide) hid hvalid) hheld.notes
      (updateProducer_doneWithin _ 1 hroot) (pool_nodup (by omega : n ≤ 100)) (by simp [pool])
      fun id hid hissue => by
        have := hissued id hissue
        have := mem_pool (by omega) hid
        omega
    obtain ⟨r, os', rfl, hheld'⟩ := hheld.update topic_valid fits.1 (by decide) hid hvalid hrun
    rw [upsert_evenStates] at hheld'
    refine ⟨b', some r, os', hupdated.update le_rfl (by decide) hid
      (validate_eq_ok.mpr hvalid) hrun, hheld', fun id hid => ?_⟩
    rcases hdrawn id hid with hold | hnew
    · have := hissued id hold
      omega
    · exact (mem_pool (by omega) hnew).2

/-- A producer that falls into a gap between the ids of a directory with two levels. -/
theorem producer_directory_is_a_map_reference :
    ∃ (b : Bucket Unit Body) (root : ProducerRef), Updated log () b (some root) 1 ∧
      0 < root.level ∧
      (∃ cs result b', log.UpdateRun () b (some root) (firstState 63) 1 cs result b') ∧
      ∀ cs result b', log.UpdateRun () b (some root) (firstState 63) 1 cs result b' →
        ∃ r, result = .ok r ∧
          (∀ p, PageBelow b'.objects r p → log.ValidPage b'.objects 1 p) ∧
          ∀ id, log.evaluate b'.objects (log.producerState (some r) id 1) =
            .ok (if id = 63 then some (firstState 63) else (evenStates 65).find? (·.id = id)) := by
  -- 65 states with even ids fill more than one leaf
  obtain ⟨b, root, os, hupdated, hheld, hissued⟩ := updated_evenStates (n := 65) (by decide)
  cases root with
  | none => cases hheld.directory
  | some root =>
    -- one leaf holds 64 at most
    have hlevel : 0 < root.level := by
      have hcount : (evenStates 65).length = statesBelow [root] := Grove.count hheld.directory
      have hvalid := Grove.roots_valid hheld.directory root (by simp)
      have hcapacity := (validateProducerRef_eq_ok.mp hvalid).2.2.2.2.2.2.1
      by_contra hzero
      rw [show root.level = 0 by omega, show levelCapacity 0 = 64 by decide] at hcapacity
      simp [evenStates, statesBelow] at hcount
      omega
    -- the id 63 lies in a gap
    obtain ⟨hruns, hmap⟩ := producer_directory_is_a_map log () topic_valid fits.1 hupdated
      (firstState 63) 1 le_rfl (by decide) (by decide) (validate_eq_ok.mpr (firstState_valid 63))
    refine ⟨b, root, hupdated, hlevel, hruns (pool 65) (pool_nodup (by decide)) (by simp [pool])
      fun id hid hissue => ?_, fun cs result b' hrun => ?_⟩
    · have := hissued id hissue
      have := mem_pool (by decide) hid
      omega
    · obtain ⟨r, hr, hpages, hfound⟩ := hmap cs result b' hrun
      refine ⟨r, hr, hpages, fun id => ?_⟩
      obtain ⟨old, hold, hnew⟩ := hfound id 1 le_rfl
      rw [producerState_evaluate hheld.directory] at hold
      rw [hnew, ← Except.ok.inj hold]
      rfl

end Reference

end PartitionLog

end Walstream.Log

import Walstream.Log.IndexGrowth

/-!
# The states of the producer directory

`Grove content next pages objects states`: in a store with this content, the producer
pages below `pages` are the objects `objects` and hold `states`, in increasing order of
ids. Every page below the root is at least half full, which bounds the height of the tree.
-/

namespace Walstream.Log

open Interaction

namespace PartitionLog

/-- The page that a reference promises is there. -/
structure StoredProducerPage (log : PartitionLog) (content : String → Option Body)
    (nextOffset : Int) (r : ProducerRef) (page : ProducerPage) : Prop where
  body : content r.object = some (.producerPage page)
  length : log.crates.size (.producerPage page) = r.byteLength
  sha : log.crates.sha256Hex (.producerPage page) = r.sha256
  reference : log.validateProducerRef r = .ok ()
  check : log.checkProducerPage nextOffset r page = .ok ()
  path : log.crates.pathFrom r.object = r.object

/-- The fewest states below a page of this level that is not the root. -/
def fill (level : Nat) : Nat := 32 ^ (level + 1)

/-- Every page is at least half full. -/
def Thick (children : List ProducerRef) : Prop := ∀ c ∈ children, fill c.level ≤ c.count

/-- The pages below a list of references, and the states in them. -/
inductive Grove (log : PartitionLog) (content : String → Option Body) (nextOffset : Int) :
    List ProducerRef → List String → List ProducerState → Prop where
  | nil : Grove log content nextOffset [] [] []
  | leaf {r : ProducerRef} {pages : List ProducerRef} {states rest : List ProducerState}
      {objects : List String} (page : log.StoredProducerPage content nextOffset r (.leaf states))
      (h : Grove log content nextOffset pages objects rest) :
      Grove log content nextOffset (r :: pages) (r.object :: objects) (states ++ rest)
  | branch {r : ProducerRef} {children pages : List ProducerRef} {states : List ProducerState}
      {objects : List String}
      (page : log.StoredProducerPage content nextOffset r (.branch children))
      (thick : Thick children) (h : Grove log content nextOffset (children ++ pages) objects states) :
      Grove log content nextOffset (r :: pages) (r.object :: objects) states

variable {self : PartitionLog} {content content' : String → Option Body} {nextOffset : Int}

/-! ## Reading one page -/

theorem parseProducerPage_of_bounds {page : ProducerPage} {bounds : ProducerBounds}
    (h : self.producerPageBounds nextOffset page = .ok bounds) :
    self.parseProducerPage (.producerPage page) = .ok page := by
  obtain ⟨firstId, lastId, count, level⟩ := bounds
  cases page with
  | leaf ps =>
    obtain ⟨hlen, hvalid, -⟩ := producerPageBounds_leaf.mp h
    have hall : ps.length ≤ pageEntries ∧ ∀ p ∈ ps, p.batches.length ≤ retryBatches :=
      ⟨hlen, fun p hp => (hvalid p hp).length_le⟩
    simp only [parseProducerPage]
    rw [if_pos hall]
  | branch children =>
    obtain ⟨-, hlen, -⟩ := producerPageBounds_branch.mp h
    simp [parseProducerPage, hlen]

namespace StoredProducerPage

variable {r : ProducerRef} {page page' : ProducerPage}
  (h : self.StoredProducerPage content nextOffset r page)

include h

theorem mono (hc : content' r.object = content r.object) :
    self.StoredProducerPage content' nextOffset r page where
  body := hc.trans h.body
  length := h.length
  sha := h.sha
  reference := h.reference
  check := h.check
  path := h.path

theorem mono_next {nextOffset' : Int} (hle : nextOffset ≤ nextOffset') :
    self.StoredProducerPage content nextOffset' r page where
  body := h.body
  length := h.length
  sha := h.sha
  reference := h.reference
  check := checkProducerPage_eq_ok.mpr
    (producerPageBounds_mono hle (checkProducerPage_eq_ok.mp h.check))
  path := h.path

theorem unique (h' : self.StoredProducerPage content nextOffset r page') : page = page' := by
  have := h.body.symm.trans h'.body
  simpa using this

theorem accept : self.acceptProducerPage nextOffset r
    ⟨self.crates.size (.producerPage page), .producerPage page, .ok (.producerPage page)⟩ =
      .ok ⟨page, h.check⟩ := by
  have hcheck := h.check
  simp only [acceptProducerPage, h.length, h.sha, Crates.collectBounded, mapError_ok, ne_eq, not_true_eq_false,
    rejectIf, if_false, gt_iff_lt, lt_irrefl, or_self,
    parseProducerPage_of_bounds (checkProducerPage_eq_ok.mp hcheck), bind, Except.bind]
  split
  · rfl
  · rename_i e he
    simp [hcheck] at he

theorem accept_broken (e : StoreError) : ∃ x, self.acceptProducerPage nextOffset r
    ⟨self.crates.size (.producerPage page), .producerPage page, .error e⟩ = .error x ∧
      x.Reports e := by
  refine ⟨.objectStore e, ?_, .inl rfl⟩
  simp [acceptProducerPage, h.length, Crates.collectBounded, rejectIf, bind, Except.bind]

end StoredProducerPage

variable {n : Notes Body} {F : LogError → Prop}

theorem readProducerPage_drafts {r : ProducerRef} {page : ProducerPage}
    {Q : self.CheckedProducerPage nextOffset r → Notes Body → Prop}
    (h : self.StoredProducerPage n.content nextOffset r page) (hQ : Q ⟨page, h.check⟩ n) :
    self.Drafts (self.readProducerPage r nextOffset) n Q F := by
  have hbody : n.content (self.crates.pathFrom r.object) = some (.producerPage page) := by
    rw [h.path, h.body]
  exact drafts_check_bind_ok h.reference (drafts_get hbody h.accept h.accept_broken hQ)

theorem readProducerPage_bind_drafts {α : Type} {r : ProducerRef} {page : ProducerPage}
    {f : self.CheckedProducerPage nextOffset r → Engine α} {Q : α → Notes Body → Prop}
    (h : self.StoredProducerPage n.content nextOffset r page)
    (hf : self.Drafts (f ⟨page, h.check⟩) n Q F) :
    self.Drafts (do f (← self.readProducerPage r nextOffset)) n Q F := by
  have hread : self.Drafts (self.readProducerPage r nextOffset) n
      (fun p n' => p = ⟨page, h.check⟩ ∧ n' = n) F := readProducerPage_drafts h ⟨rfl, rfl⟩
  refine drafting_bind hread ?_
  rintro p n' - ⟨rfl, hn⟩
  rwa [hn]

/-! ## Ranges of ids -/

/-- The ranges of the references lie apart, in increasing order. -/
def Spaced (pages : List ProducerRef) : Prop :=
  pages.Pairwise fun a b => a.lastId < b.firstId

theorem spaced_of_rangesIncrease {pages : List ProducerRef} (h : rangesIncrease pages)
    (hvalid : ∀ r ∈ pages, r.firstId ≤ r.lastId) : Spaced pages := by
  induction pages with
  | nil => exact .nil
  | cons r pages ih =>
    unfold rangesIncrease at h
    cases pages with
    | nil => exact List.pairwise_singleton _ _
    | cons q pages =>
      obtain ⟨hlt, hrest⟩ := List.isChain_cons_cons.mp h
      have hspaced := ih hrest fun p hp => hvalid p (by simp [hp])
      refine List.pairwise_cons.mpr ⟨fun p hp => ?_, hspaced⟩
      rcases List.mem_cons.mp hp with rfl | hp
      · exact hlt
      · have := (List.pairwise_cons.mp hspaced).1 p hp
        have := hvalid q (by simp)
        omega

theorem rangesIncrease_of_spaced {pages : List ProducerRef} (h : Spaced pages) :
    rangesIncrease pages := h.isChain

/-- What the check of a leaf says about its reference. -/
theorem check_leaf {r : ProducerRef} {states : List ProducerState}
    (h : self.checkProducerPage nextOffset r (.leaf states) = .ok ()) :
    states.length ≤ pageEntries ∧ (∀ p ∈ states, ValidState nextOffset p) ∧ Sorted states ∧
      states.head?.map (·.id) = some r.firstId ∧ states.getLast?.map (·.id) = some r.lastId ∧
      states.length = r.count ∧ r.level = 0 := by
  rw [checkProducerPage_eq_ok] at h
  exact producerPageBounds_leaf.mp h

/-- What the check of a branch says about its reference. -/
theorem check_branch {r : ProducerRef} {children : List ProducerRef}
    (h : self.checkProducerPage nextOffset r (.branch children) = .ok ()) :
    2 ≤ children.length ∧ children.length ≤ pageEntries ∧
      (∀ c ∈ children, self.validateProducerRef c = .ok () ∧ c.level + 1 = r.level) ∧
      Spaced children ∧ children.head?.map (·.firstId) = some r.firstId ∧
      children.getLast?.map (·.lastId) = some r.lastId ∧ statesBelow children = r.count := by
  rw [checkProducerPage_eq_ok] at h
  obtain ⟨h₁, h₂, h₃, h₄, h₅, h₆, h₇, -⟩ := producerPageBounds_branch.mp h
  refine ⟨h₁, h₂, h₃, spaced_of_rangesIncrease h₄ fun c hc => ?_, h₅, h₆, h₇⟩
  exact (validateProducerRef_eq_ok.mp (h₃ c hc).1).2.2.1

/-! ## Flattening -/

theorem child_within {r : ProducerRef} {children : List ProducerRef}
    (hvalid : ∀ c ∈ children, c.firstId ≤ c.lastId) (hspaced : Spaced children)
    (hfirst : children.head?.map (·.firstId) = some r.firstId)
    (hlast : children.getLast?.map (·.lastId) = some r.lastId) :
    ∀ c ∈ children, r.firstId ≤ c.firstId ∧ c.lastId ≤ r.lastId := by
  intro c hc
  obtain ⟨first, hhead, hfirstId⟩ := Option.map_eq_some_iff.mp hfirst
  obtain ⟨last, hend, hlastId⟩ := Option.map_eq_some_iff.mp hlast
  have hcvalid := hvalid c hc
  constructor
  -- the first child has the least first id
  · obtain ⟨rest, rfl⟩ := List.head?_eq_some_iff.mp hhead
    rcases List.mem_cons.mp hc with rfl | hc
    · exact hfirstId.ge
    · have := (List.pairwise_cons.mp hspaced).1 c hc
      have := hvalid first (by simp)
      omega
  -- and the last child has the greatest last id
  · obtain ⟨init, rfl⟩ := List.getLast?_eq_some_iff.mp hend
    rcases List.mem_append.mp hc with hc | hc
    · have := (List.pairwise_append.mp hspaced).2.2 c hc last (by simp)
      have := hvalid last (by simp)
      omega
    · rw [List.mem_singleton.mp hc]
      exact hlastId.le

theorem leaf_within {r : ProducerRef} {states : List ProducerState}
    (hsorted : Sorted states) (hfirst : states.head?.map (·.id) = some r.firstId)
    (hlast : states.getLast?.map (·.id) = some r.lastId) :
    ∀ p ∈ states, r.firstId ≤ p.id ∧ p.id ≤ r.lastId := by
  intro p hp
  obtain ⟨first, hhead, hfirstId⟩ := Option.map_eq_some_iff.mp hfirst
  obtain ⟨last, hend, hlastId⟩ := Option.map_eq_some_iff.mp hlast
  constructor
  · obtain ⟨rest, rfl⟩ := List.head?_eq_some_iff.mp hhead
    rcases List.mem_cons.mp hp with rfl | hp
    · exact hfirstId.ge
    · have := (List.pairwise_cons.mp hsorted).1 p hp
      omega
  · obtain ⟨init, rfl⟩ := List.getLast?_eq_some_iff.mp hend
    rcases List.mem_append.mp hp with hp | hp
    · have := (List.pairwise_append.mp hsorted).2.2 p hp last (by simp)
      omega
    · rw [List.mem_singleton.mp hp]
      exact hlastId.le

/-- The states below a list of references, where `page` says what stands behind each. -/
inductive Leaves (page : ProducerRef → ProducerPage → Prop) :
    List ProducerRef → List ProducerState → Prop where
  | nil : Leaves page [] []
  /-- A leaf holds its states. -/
  | leaf {r : ProducerRef} {pages : List ProducerRef} {states rest : List ProducerState}
      (h : page r (.leaf states)) (hrest : Leaves page pages rest) :
      Leaves page (r :: pages) (states ++ rest)
  /-- A branch holds what its children hold. -/
  | branch {r : ProducerRef} {children pages : List ProducerRef} {below rest : List ProducerState}
      (h : page r (.branch children)) (hbelow : Leaves page children below)
      (hrest : Leaves page pages rest) : Leaves page (r :: pages) (below ++ rest)

namespace Leaves

variable {page : ProducerRef → ProducerPage → Prop} {pages qs : List ProducerRef}
  {ss ts : List ProducerState}

theorem append (h : Leaves page pages ss) (h' : Leaves page qs ts) :
    Leaves page (pages ++ qs) (ss ++ ts) := by
  induction h with
  | nil => exact h'
  | leaf hpage _ ih =>
    rw [List.append_assoc]
    exact .leaf hpage ih
  | branch hpage hbelow _ _ ih =>
    rw [List.append_assoc]
    exact .branch hpage hbelow ih

theorem split (h : Leaves page (pages ++ qs) ss) :
    ∃ ss₁ ss₂, ss = ss₁ ++ ss₂ ∧ Leaves page pages ss₁ ∧ Leaves page qs ss₂ := by
  induction pages generalizing ss with
  | nil => exact ⟨[], ss, rfl, .nil, h⟩
  | cons r pages ih =>
    cases h with
    | @leaf _ _ states rest hpage hrest =>
      obtain ⟨ss₁, ss₂, rfl, h₁, h₂⟩ := ih hrest
      exact ⟨states ++ ss₁, ss₂, (List.append_assoc ..).symm, .leaf hpage h₁, h₂⟩
    | @branch _ _ _ below rest hpage hbelow hrest =>
      obtain ⟨ss₁, ss₂, rfl, h₁, h₂⟩ := ih hrest
      exact ⟨below ++ ss₁, ss₂, (List.append_assoc ..).symm, .branch hpage hbelow h₁, h₂⟩

/-- The pages determine the states. -/
theorem unique (hpage : ∀ r p q, page r p → page r q → p = q) (h : Leaves page pages ss)
    (h' : Leaves page pages ts) : ss = ts := by
  induction h generalizing ts with
  | nil => cases h'; rfl
  | leaf hr _ ih =>
    cases h' with
    | leaf hr' hrest' =>
      cases hpage _ _ _ hr hr'
      rw [ih hrest']
    | branch hr' _ _ => cases hpage _ _ _ hr hr'
  | branch hr _ _ ihbelow ihrest =>
    cases h' with
    | leaf hr' _ => cases hpage _ _ _ hr hr'
    | branch hr' hbelow' hrest' =>
      cases hpage _ _ _ hr hr'
      rw [ihbelow hbelow', ihrest hrest']

section Checked

variable (hcheck : ∀ r p, page r p → self.checkProducerPage nextOffset r p = .ok ())

include hcheck

/-- There are as many states as the references promise. -/
theorem count (h : Leaves page pages ss) : ss.length = statesBelow pages := by
  induction h with
  | nil => rfl
  | leaf hpage _ ih =>
    have := (check_leaf (hcheck _ _ hpage)).2.2.2.2.2.1
    rw [List.length_append, statesBelow_cons, ih, this]
  | branch hpage _ _ ihbelow ihrest =>
    have := (check_branch (hcheck _ _ hpage)).2.2.2.2.2.2
    rw [List.length_append, statesBelow_cons, ihbelow, ihrest, this]

/-- Pages whose ranges lie apart hold a sorted list, each state in the range of a page. -/
theorem sorted (h : Leaves page pages ss) (hspaced : Spaced pages) :
    Sorted ss ∧ ∀ p ∈ ss, ∃ r ∈ pages, r.firstId ≤ p.id ∧ p.id ≤ r.lastId := by
  -- what one page holds lies in its range, and the ranges of the later pages lie above it
  have hjoin : ∀ {r : ProducerRef} {pages : List ProducerRef} {below rest : List ProducerState},
      Spaced (r :: pages) → Sorted below → (∀ p ∈ below, r.firstId ≤ p.id ∧ p.id ≤ r.lastId) →
      Sorted rest → (∀ p ∈ rest, ∃ q ∈ pages, q.firstId ≤ p.id ∧ p.id ≤ q.lastId) →
      Sorted (below ++ rest) ∧
        ∀ p ∈ below ++ rest, ∃ q ∈ r :: pages, q.firstId ≤ p.id ∧ p.id ≤ q.lastId := by
    intro r pages below rest hspaced hbelow hwithin hrest hranges
    refine ⟨sorted_append.mpr ⟨hbelow, hrest, fun p hp q hq => ?_⟩, fun p hp => ?_⟩
    · obtain ⟨r', hr', hle, -⟩ := hranges q hq
      have := (hwithin p hp).2
      have := (List.pairwise_cons.mp hspaced).1 r' hr'
      omega
    · rcases List.mem_append.mp hp with hp | hp
      · exact ⟨r, by simp, hwithin p hp⟩
      · obtain ⟨r', hr', hle⟩ := hranges p hp
        exact ⟨r', by simp [hr'], hle⟩
  induction h with
  | nil => exact ⟨.nil, by simp⟩
  | leaf hpage _ ih =>
    obtain ⟨hsorted, hranges⟩ := ih (List.pairwise_cons.mp hspaced).2
    obtain ⟨-, -, hstates, hfirst, hlast, -⟩ := check_leaf (hcheck _ _ hpage)
    exact hjoin hspaced hstates (leaf_within hstates hfirst hlast) hsorted hranges
  | @branch r children pages below rest hpage _ _ ihbelow ihrest =>
    obtain ⟨hsorted, hranges⟩ := ihrest (List.pairwise_cons.mp hspaced).2
    obtain ⟨-, -, hchildren, hspaced', hfirst, hlast, -⟩ := check_branch (hcheck _ _ hpage)
    have hwithin := child_within (fun c hc =>
      (validateProducerRef_eq_ok.mp (hchildren c hc).1).2.2.1) hspaced' hfirst hlast
    obtain ⟨hbelow, hin⟩ := ihbelow hspaced'
    refine hjoin hspaced hbelow (fun p hp => ?_) hsorted hranges
    obtain ⟨c, hc, hle, hge⟩ := hin p hp
    have := hwithin c hc
    omega

/-- An id outside the range of every page is not found below them. -/
theorem find_none {id : Int} (h : Leaves page pages ss) (hspaced : Spaced pages)
    (hid : ∀ r ∈ pages, ¬ (r.firstId ≤ id ∧ id ≤ r.lastId)) : ss.find? (·.id = id) = none := by
  rw [List.find?_eq_none]
  intro p hp
  obtain ⟨r, hr, hle⟩ := (h.sorted hcheck hspaced).2 p hp
  have := hid r hr
  simp only [decide_eq_true_eq]
  rintro rfl
  exact this hle

/-- An id in the range of one page is not found before or after that page. -/
theorem find_middle {id : Int} {init rest : List ProducerRef} {r : ProducerRef}
    {before below after : List ProducerState} (h : Leaves page init before)
    (h' : Leaves page rest after) (hspaced : Spaced (init ++ r :: rest))
    (hr : r.firstId ≤ id ∧ id ≤ r.lastId) :
    (before ++ (below ++ after)).find? (·.id = id) = below.find? (·.id = id) := by
  obtain ⟨hinit, hrest, hbefore⟩ := List.pairwise_append.mp hspaced
  obtain ⟨hafter, hrest⟩ := List.pairwise_cons.mp hrest
  rw [List.find?_append, List.find?_append, h.find_none hcheck hinit, h'.find_none hcheck hrest]
  · simp
  · intro c hc hin
    have := hafter c hc
    omega
  · intro c hc hin
    have := hbefore c hc r (by simp)
    omega

end Checked

end Leaves

namespace Grove

variable {pages qs : List ProducerRef} {os ps : List String} {ss ts : List ProducerState}

theorem append (h : self.Grove content nextOffset pages os ss)
    (h' : self.Grove content nextOffset qs ps ts) :
    self.Grove content nextOffset (pages ++ qs) (os ++ ps) (ss ++ ts) := by
  induction h with
  | nil => exact h'
  | leaf page _ ih =>
    rw [List.append_assoc]
    exact .leaf page ih
  | branch page thick _ ih =>
    rw [List.append_assoc] at ih
    exact .branch page thick ih

theorem split (h : self.Grove content nextOffset (pages ++ qs) os ss) :
    ∃ os₁ os₂ ss₁ ss₂, os = os₁ ++ os₂ ∧ ss = ss₁ ++ ss₂ ∧
      self.Grove content nextOffset pages os₁ ss₁ ∧ self.Grove content nextOffset qs os₂ ss₂ := by
  generalize hall : pages ++ qs = all at h
  induction h generalizing pages with
  | nil =>
    obtain ⟨rfl, rfl⟩ := List.append_eq_nil_iff.mp hall
    exact ⟨[], [], [], [], rfl, rfl, .nil, .nil⟩
  -- the first list is over, or begins with this page
  | @leaf r rs states rest objects page h ih =>
    cases pages with
    | nil =>
      subst hall
      exact ⟨[], _, [], _, rfl, rfl, .nil, .leaf page h⟩
    | cons p pages =>
      obtain ⟨rfl, rfl⟩ := List.cons_eq_cons.mp hall
      obtain ⟨os₁, os₂, ss₁, ss₂, rfl, rfl, h₁, h₂⟩ := ih rfl
      exact ⟨p.object :: os₁, os₂, states ++ ss₁, ss₂, rfl, by simp, .leaf page h₁, h₂⟩
  | @branch r children rs states objects page thick h ih =>
    cases pages with
    | nil =>
      subst hall
      exact ⟨[], _, [], _, rfl, rfl, .nil, .branch page thick h⟩
    | cons p pages =>
      obtain ⟨rfl, rfl⟩ := List.cons_eq_cons.mp hall
      obtain ⟨os₁, os₂, ss₁, ss₂, rfl, rfl, h₁, h₂⟩ := ih (List.append_assoc _ _ _)
      exact ⟨p.object :: os₁, os₂, ss₁, ss₂, rfl, rfl, .branch page thick h₁, h₂⟩

/-- A grove only depends on its own objects. -/
theorem split_head {r : ProducerRef} (h : self.Grove content nextOffset (r :: pages) os ss) :
    ∃ os₁ os₂ ss₁ ss₂, os = os₁ ++ os₂ ∧ ss = ss₁ ++ ss₂ ∧
      self.Grove content nextOffset [r] os₁ ss₁ ∧
      self.Grove content nextOffset pages os₂ ss₂ :=
  split (show self.Grove content nextOffset ([r] ++ pages) os ss from h)

theorem leaves (h : self.Grove content nextOffset pages os ss) :
    Leaves (self.StoredProducerPage content nextOffset) pages ss := by
  induction h with
  | nil => exact .nil
  | leaf page _ ih => exact .leaf page ih
  | branch page _ _ ih =>
    obtain ⟨below, rest, rfl, hbelow, hrest⟩ := ih.split
    exact .branch page hbelow hrest

theorem mono (h : self.Grove content nextOffset pages os ss)
    (hc : ∀ o ∈ os, content' o = content o) : self.Grove content' nextOffset pages os ss := by
  induction h with
  | nil => exact .nil
  | leaf page _ ih =>
    exact .leaf (page.mono (hc _ (by simp))) (ih fun o ho => hc o (by simp [ho]))
  | branch page thick _ ih =>
    exact .branch (page.mono (hc _ (by simp))) thick (ih fun o ho => hc o (by simp [ho]))

/-- A grove stays one when the log grows. -/
theorem mono_next {nextOffset' : Int} (h : self.Grove content nextOffset pages os ss)
    (hle : nextOffset ≤ nextOffset') : self.Grove content nextOffset' pages os ss := by
  induction h with
  | nil => exact .nil
  | leaf page _ ih => exact .leaf (page.mono_next hle) ih
  | branch page thick _ ih => exact .branch (page.mono_next hle) thick ih

/-- What the references stand for is determined by the content. -/
theorem unique (h : self.Grove content nextOffset pages os ss)
    (h' : self.Grove content nextOffset pages ps ts) : os = ps ∧ ss = ts := by
  induction h generalizing ps ts with
  | nil => cases h'; exact ⟨rfl, rfl⟩
  | leaf page _ ih =>
    cases h' with
    | leaf page' h' =>
      have := page.unique page'
      cases this
      obtain ⟨rfl, rfl⟩ := ih h'
      exact ⟨rfl, rfl⟩
    | branch page' _ h' => cases page.unique page'
  | branch page _ _ ih =>
    cases h' with
    | leaf page' h' => cases page.unique page'
    | branch page' _ h' =>
      have := page.unique page'
      cases this
      obtain ⟨rfl, rfl⟩ := ih h'
      exact ⟨rfl, rfl⟩

theorem mem_objects (h : self.Grove content nextOffset pages os ss) {o : String} (ho : o ∈ os) :
    ∃ r page, o = r.object ∧ self.StoredProducerPage content nextOffset r page := by
  induction h with
  | nil => simp at ho
  | leaf page _ ih =>
    rcases List.mem_cons.mp ho with rfl | ho
    · exact ⟨_, _, rfl, page⟩
    · exact ih ho
  | branch page _ _ ih =>
    rcases List.mem_cons.mp ho with rfl | ho
    · exact ⟨_, _, rfl, page⟩
    · exact ih ho

theorem content_ne_none (h : self.Grove content nextOffset pages os ss) {o : String}
    (ho : o ∈ os) : content o ≠ none := by
  obtain ⟨r, page, rfl, hstored⟩ := h.mem_objects ho
  simp [hstored.body]

theorem grows {n' : Notes Body} (h : self.Grove n.content nextOffset pages os ss)
    (hn : n.Grows n') : self.Grove n'.content nextOffset pages os ss := by
  refine h.mono fun o ho => ?_
  obtain ⟨body, hbody⟩ := Option.ne_none_iff_exists'.mp (h.content_ne_none ho)
  rw [hbody, hn.content o body hbody]

theorem roots_valid (h : self.Grove content nextOffset pages os ss) :
    ∀ r ∈ pages, self.validateProducerRef r = .ok () := by
  induction h with
  | nil => simp
  | leaf page _ ih => simpa [page.reference] using ih
  | branch page _ _ ih =>
    intro r hr
    rcases List.mem_cons.mp hr with rfl | hr
    · exact page.reference
    · exact ih r (List.mem_append_right _ hr)

/-- Every state in the directory passed the reader's checks. -/
theorem valid (h : self.Grove content nextOffset pages os ss) :
    ∀ p ∈ ss, ValidState nextOffset p := by
  induction h with
  | nil => simp
  | leaf page _ ih =>
    intro p hp
    rcases List.mem_append.mp hp with hp | hp
    · exact (check_leaf page.check).2.1 p hp
    · exact ih p hp
  | branch _ _ _ ih => exact ih

theorem count (h : self.Grove content nextOffset pages os ss) : ss.length = statesBelow pages :=
  h.leaves.count fun _ _ h => h.check

/-- The first and the last id stand in the references. -/
theorem ends (h : self.Grove content nextOffset pages os ss) :
    ss.head?.map (·.id) = pages.head?.map (·.firstId) ∧
      ss.getLast?.map (·.id) = pages.getLast?.map (·.lastId) := by
  -- along the walk, whose first and last pages are those of the row
  induction h with
  | nil => exact ⟨rfl, rfl⟩
  | @leaf r pages states rest objects page h ih =>
    obtain ⟨-, -, -, hfirst, hlast, -⟩ := check_leaf page.check
    obtain ⟨p, ps, rfl⟩ : ∃ p ps, states = p :: ps := by
      cases states with
      | nil => simp at hfirst
      | cons p ps => exact ⟨p, ps, rfl⟩
    -- the last id is that of the last page, if there is one behind this leaf
    refine ⟨by simpa using hfirst, ?_⟩
    have ih₂ := ih.2
    simp only [List.getLast?_append, List.getLast?_cons] at hlast ⊢
    rcases hpages : pages.getLast? with _ | q
    · have hrest : rest.getLast? = none := by
        rw [hpages] at ih₂
        simpa using ih₂
      rw [hrest]
      simpa using hlast
    · rw [hpages] at ih₂
      obtain ⟨t, ht, hid⟩ := Option.map_eq_some_iff.mp ih₂
      rw [ht]
      simpa using hid
  -- a branch has the ends of its children
  | @branch r children pages states objects page thick h ih =>
    obtain ⟨hlen, -, -, -, hfirst, hlast, -⟩ := check_branch page.check
    obtain ⟨c, cs, rfl⟩ : ∃ c cs, children = c :: cs := by
      cases children with
      | nil => simp at hlen
      | cons c cs => exact ⟨c, cs, rfl⟩
    refine ⟨by rw [ih.1]; simpa using hfirst, ?_⟩
    rw [ih.2]
    simp only [List.getLast?_append, List.getLast?_cons] at hlast ⊢
    rcases hpages : pages.getLast? with _ | q
    · simpa using hlast
    · simp

/-- Pages whose ranges lie apart hold a sorted list, each state in the range of a page. -/
theorem sorted (h : self.Grove content nextOffset pages os ss) (hspaced : Spaced pages) :
    Sorted ss ∧ ∀ p ∈ ss, ∃ r ∈ pages, r.firstId ≤ p.id ∧ p.id ≤ r.lastId :=
  h.leaves.sorted (fun _ _ h => h.check) hspaced

/-- Conversely, sorted states stand below references whose ranges lie apart. -/
theorem spaced (h : self.Grove content nextOffset pages os ss) (hsorted : Sorted ss) :
    Spaced pages := by
  induction pages generalizing os ss with
  | nil => exact .nil
  | cons r pages ih =>
    obtain ⟨os₁, os₂, ss₁, ss₂, rfl, rfl, h₁, h₂⟩ := split_head h
    obtain ⟨-, hsorted₂, hlt⟩ := sorted_append.mp hsorted
    have hrest := ih h₂ hsorted₂
    -- the last state below the page comes before the first one behind it
    refine List.pairwise_cons.mpr ⟨fun q hq => ?_, hrest⟩
    obtain ⟨last, hlast, hlastId⟩ := Option.map_eq_some_iff.mp
      (h₁.ends.2.trans (by rfl : [r].getLast?.map (·.lastId) = some r.lastId))
    have hmem := List.mem_of_getLast? hlast
    obtain ⟨q₀, pages', rfl⟩ := List.exists_cons_of_ne_nil (List.ne_nil_of_mem hq)
    obtain ⟨first, hfirst, hfirstId⟩ := Option.map_eq_some_iff.mp
      (h₂.ends.1.trans (by rfl : (q₀ :: pages').head?.map (·.firstId) = some q₀.firstId))
    have hmem' : first ∈ ss₂ := List.mem_of_mem_head? hfirst
    have hbase := hlt last hmem first hmem'
    rcases List.mem_cons.mp hq with rfl | hq
    · omega
    · have := (List.pairwise_cons.mp hrest).1 q hq
      have := (validateProducerRef_eq_ok.mp (h₂.roots_valid q₀ (by simp))).2.2.1
      omega

end Grove

end PartitionLog

end Walstream.Log

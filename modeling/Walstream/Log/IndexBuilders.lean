import Walstream.Log.IndexCompletion
import Walstream.Log.IndexCounts
import Walstream.Log.Uninterrupted

/-!
# The builders of the index agree

An index grows by appends, which seal the tail when the next segment would not fit; it is built
from a manifest of the first schema by `migrate_manifest`; and retention writes it anew with
`rebuild_index`. All of them leave a snug tree and a tail that is empty only when there are no
segments. That determines the length of the tail and the shape of the tree.
-/

namespace Walstream.Log

open Interaction Tiling

namespace PartitionLog

variable {self : PartitionLog} {content content' : String → Option Body}

/-! ## Roots with a snug tree -/

/-- The tree and the tail of the root hold these segments, in order. -/
def Holding (log : PartitionLog) (content : String → Option Body) (root : Root)
    (segments : List Segment) : Prop :=
  ∃ os ss, Walk (log.Answered content) root.tree.toList os ss ∧ segments = ss ++ root.tail

theorem Holding.unique {root : Root} {segments segments' : List Segment}
    (h : self.Holding content root segments) (h' : self.Holding content root segments') :
    segments = segments' := by
  obtain ⟨os, ss, hwalk, rfl⟩ := h
  obtain ⟨os', ss', hwalk', rfl⟩ := h'
  have hpage : ∀ r p q, self.Answered content r p → self.Answered content r q → p = q :=
    fun _ _ _ hp hq => hp.unique hq
  rw [(hwalk.unique hpage hwalk').2]

theorem Stands.holding {root : Root} {segments : List Segment} {next : Int}
    (h : self.Stands content root segments next) : self.Holding content root segments := by
  obtain ⟨os, hindexed⟩ := h
  obtain ⟨ss, hforest, rfl⟩ := hindexed.forest
  exact ⟨os, ss, hforest.imp fun _ _ _ hpage => hpage.answered, rfl⟩

/-- The root holds the segments, in a snug tree and a tail that fits one leaf. -/
structure Packed (log : PartitionLog) (content : String → Option Body) (root : Root)
    (segments : List Segment) : Prop where
  holds : log.Holding content root segments
  snug : ∀ r ∈ root.tree, Snug r
  tail_le : root.tail.length ≤ pageEntries

/-- The form in which every builder leaves the root. -/
structure Canonical (log : PartitionLog) (content : String → Option Body) (root : Root)
    (segments : List Segment) : Prop extends log.Packed content root segments where
  compact : Root.Compact root

/-- What is answered in a store is answered in every larger one. -/
theorem Walk.extend {pages : List PageRef} {os : List String} {ss : List Segment}
    (h : Walk (self.Answered content) pages os ss) (hc : Extends content content') :
    Walk (self.Answered content') pages os ss := h.imp fun _ _ _ hpage => hpage.mono hc

theorem Packed.extend {root : Root} {segments : List Segment}
    (h : self.Packed content root segments) (hc : Extends content content') :
    self.Packed content' root segments where
  holds := by
    obtain ⟨os, ss, hwalk, heq⟩ := h.holds
    exact ⟨os, ss, hwalk.extend hc, heq⟩
  snug := h.snug
  tail_le := h.tail_le

/-- Only tree and tail of the root matter. -/
theorem Packed.congr {root root' : Root} {segments : List Segment}
    (h : self.Packed content root segments) (htree : root'.tree = root.tree)
    (htail : root'.tail = root.tail) : self.Packed content root' segments where
  holds := by
    obtain ⟨os, ss, hwalk, heq⟩ := h.holds
    exact ⟨os, ss, htree ▸ hwalk, htail ▸ heq⟩
  snug := htree ▸ h.snug
  tail_le := htail ▸ h.tail_le

/-- One more segment where the tail has room for it. -/
theorem Packed.push {root root' : Root} {segments : List Segment} {s : Segment}
    (h : self.Packed content root segments) (hroom : root.tail.length < pageEntries)
    (htree : root'.tree = root.tree) (htail : root'.tail = root.tail ++ [s]) :
    self.Canonical content root' (segments ++ [s]) where
  holds := by
    obtain ⟨os, ss, hwalk, rfl⟩ := h.holds
    exact ⟨os, ss, htree ▸ hwalk, by rw [htail, List.append_assoc]⟩
  snug := htree ▸ h.snug
  tail_le := by
    rw [htail, List.length_append, List.length_singleton]
    omega
  compact := fun hnil => by simp [htail] at hnil

theorem Answered.checked (content : String → Option Body) :
    ∀ r p, self.Answered content r p → self.checkPage r p = .ok () := fun _ _ h => h.check

/-- A tree that has a walk is valid. -/
theorem Walk.root_valid {r : PageRef} {os : List String} {ss : List Segment}
    (h : Walk (self.Answered content) [r] os ss) : self.validatePageRef r = .ok () := by
  cases h with
  | leaf hpage _ => exact hpage.valid
  | branch hpage _ => exact hpage.valid

/-- All but the last 1 to 64 segments are in the tree. -/
theorem Canonical.treeCount {root : Root} {segments : List Segment}
    (h : self.Canonical content root segments) {os : List String} {ss : List Segment}
    (hwalk : Walk (self.Answered content) root.tree.toList os ss) (heq : segments = ss ++ root.tail) :
    ss.length = (segments.length - 1) / pageEntries * pageEntries := by
  obtain ⟨k, hk⟩ := hwalk.dvd_length (Answered.checked content)
  have htail := h.tail_le
  have hcompact : root.tail.length = 0 → ss.length = 0 := by
    intro hzero
    rw [h.compact (List.length_eq_zero_iff.mp hzero)] at hwalk
    cases hwalk
    rfl
  rw [heq, List.length_append]
  simp only [pageEntries] at *
  omega

/-- **Two canonical roots over corresponding segments agree.** -/
theorem Canonical.agree {R : Segment → Segment → Prop} (hR : ∀ s s', R s s' → s.SameRange s')
    {root root' : Root} {segments segments' : List Segment}
    (h : self.Canonical content root segments) (h' : self.Canonical content' root' segments')
    (hsegments : List.Forall₂ R segments segments') :
    List.Forall₂ R root.tail root'.tail ∧
      Alike (self.Answered content) (self.Answered content') R root.tree.toList
        root'.tree.toList := by
  obtain ⟨os, ss, hwalk, heq⟩ := h.holds
  obtain ⟨os', ss', hwalk', heq'⟩ := h'.holds
  -- both trees seal as many segments, so that the tails begin at the same one
  have hlength : ss.length = ss'.length := by
    rw [h.treeCount hwalk heq, h'.treeCount hwalk' heq', hsegments.length_eq]
  subst heq heq'
  have htrees := List.forall₂_take ss.length hsegments
  have htails := List.forall₂_drop ss.length hsegments
  rw [List.take_left, hlength, List.take_left] at htrees
  rw [List.drop_left, hlength, List.drop_left] at htails
  refine ⟨htails, ?_⟩
  have hsnug := h.snug
  have hsnug' := h'.snug
  have hcount := hwalk.count (Answered.checked content)
  have hcount' := hwalk'.count (Answered.checked content')
  rcases htree : root.tree with _ | r
  · -- without segments in the tree there is no tree
    rw [htree] at hcount
    rcases htree' : root'.tree with _ | r'
    · exact .nil
    · rw [htree'] at hwalk' hcount'
      have hpos := (validatePageRef_eq_ok.mp (Walk.root_valid hwalk')).2.2.2.2.1
      simp only [Option.toList_none, countBelow_nil, Option.toList_some, countBelow_cons] at hcount hcount'
      omega
  -- both roots have a tree, of the same level as it is as low as possible
  · rw [htree] at hwalk hcount hsnug
    rcases htree' : root'.tree with _ | r'
    · rw [htree'] at hcount'
      have hpos := (validatePageRef_eq_ok.mp (Walk.root_valid hwalk)).2.2.2.2.1
      simp only [Option.toList_none, countBelow_nil, Option.toList_some, countBelow_cons] at hcount hcount'
      omega
    · rw [htree'] at hwalk' hsnug'
      exact alike_of_snug (Answered.checked content) (Answered.checked content') hR
        (fun _ _ hpage => hpage.valid) (fun _ _ hpage => hpage.valid) (hsnug r rfl) (hsnug' r' rfl)
        hwalk hwalk' htrees

/-! ## Writing -/

section Alone

variable {Client : Type} {f : Faults} {cl : Client} {b : Bucket Client Body}

theorem branch_bounds {children : List PageRef} {r : PageRef}
    (h : self.newPageBounds (.branch children) = .ok r.bounds) :
    r.segmentCount = countBelow children ∧ ∀ c ∈ children, r.level = c.level + 1 := by
  obtain ⟨-, -, hcount, -, hpos, -, hrow⟩ := validateChildren_eq_ok.mp h
  refine ⟨hcount.symm, fun c hc => ?_⟩
  have := hrow.level_eq c hc
  omega

theorem leaf_bounds {segments : List Segment} {r : PageRef}
    (h : self.newPageBounds (.leaf segments) = .ok r.bounds) :
    r.segmentCount = segments.length ∧ r.level = 0 := by
  obtain _ | ⟨first, segments⟩ := segments
  · cases h
  · simp only [newPageBounds, bind_eq_ok, pure, Except.pure, Except.ok.injEq, PageRef.bounds,
      Prod.mk.injEq] at h
    obtain ⟨_, -, -, -, hcount, hlevel⟩ := h
    exact ⟨hcount.symm, hlevel.symm⟩

/-- What a new tree stands for, and its size. -/
structure Raised (log : PartitionLog) (b b' : Bucket Client Body) (r : PageRef)
    (segments : List Segment) (count level : Nat) : Prop where
  kept : Extends b.objects b'.objects
  tree : ∃ os, Walk (log.Answered b'.objects) [r] os segments
  count : r.segmentCount = count
  level : r.level = level

/-- A branch over trees is a tree. -/
theorem writeBranch_leads (htopic : validateTopic self.topic = .ok ()) {children : List PageRef}
    {os : List String} {ss : List Segment} {level : Nat}
    (h : Walk (self.Answered b.objects) children os ss) (hlevel : ∃ c ∈ children, c.level = level) :
    self.Leads f cl (self.writePage (.branch children)) b (fun r b' =>
      self.Raised b b' r ss (countBelow children) (level + 1)) := by
  obtain ⟨c, hc, rfl⟩ := hlevel
  refine (writePage_leads htopic fun _ hleaf => by cases hleaf).mono fun r b' hr => ?_
  obtain ⟨hkept, hanswered, hbounds⟩ := hr
  obtain ⟨hcount, hlevel⟩ := branch_bounds hbounds
  exact ⟨hkept, ⟨_, .branch hanswered (by simpa using h.extend hkept)⟩, hcount, hlevel c hc⟩

/-- A chain of branches up to a level. -/
theorem indexPathTo_leads (htopic : validateTopic self.topic = .ok ()) {leaf : PageRef}
    {los : List String} {lss : List Segment} {level : Nat}
    (h : Walk (self.Answered b.objects) [leaf] los lss) (hle : leaf.level ≤ level) :
    self.Leads f cl (self.indexPathTo leaf level) b (fun r b' =>
      self.Raised b b' r lss leaf.segmentCount level) := by
  unfold indexPathTo
  generalize hmissing : level - leaf.level = missing
  induction missing generalizing leaf los b with
  | zero => exact alone_pure ⟨.refl _, ⟨los, h⟩, rfl, by omega⟩
  | succ missing ih =>
    rw [indexPathLoop, if_pos (by omega)]
    refine alone_bind (writeBranch_leads htopic h ⟨leaf, by simp, rfl⟩) fun r b₁ hr => ?_
    obtain ⟨os, hwalk⟩ := hr.tree
    have hcount := hr.count
    have hlevel := hr.level
    rw [countBelow_cons, countBelow_nil, Nat.add_zero] at hcount
    refine (ih hwalk (by omega) (by omega)).mono fun r' b' hr' => ?_
    exact ⟨hr.kept.trans hr'.kept, hr'.tree, hr'.count.trans hcount, hr'.level⟩

/-! ## Inserting a leaf -/

/-- The new tree holds the leaf as well; it is higher only when the old one was full. -/
theorem insertLeaf_leads (htopic : validateTopic self.topic = .ok ()) {tree leaf : PageRef}
    {os los : List String} {ss lss : List Segment}
    (htree : Walk (self.Answered b.objects) [tree] os ss)
    (hleaf : Walk (self.Answered b.objects) [leaf] los lss) (hzero : leaf.level = 0) :
    self.Leads f cl (self.insertLeaf tree leaf) b (fun r b' =>
      self.Raised b b' r (ss ++ lss) (tree.segmentCount + leaf.segmentCount)
        (if tree.full then tree.level + 1 else tree.level)) := by
  induction hl : tree.level using Nat.strong_induction_on generalizing tree os ss with
  | _ level ih =>
  rw [insertLeaf]
  split
  · -- the old tree becomes the left child of a new root
    split
    · exact leads_throw
    refine alone_bind (indexPathTo_leads htopic hleaf (by omega)) fun right b₁ hright => ?_
    obtain ⟨ros, hwalk⟩ := hright.tree
    refine (writeBranch_leads htopic ((htree.extend hright.kept).append hwalk)
      ⟨tree, by simp, rfl⟩).mono fun r b' hr => ?_
    refine ⟨hright.kept.trans hr.kept, hr.tree, ?_, by rw [hr.level, hl]⟩
    rw [hr.count, List.singleton_append, countBelow_cons, countBelow_cons, countBelow_nil,
      Nat.add_zero, hright.count]
  · refine alone_bind (readPage_leads tree) fun p b₁ hp => ?_
    obtain ⟨page, hpage⟩ := p
    obtain ⟨rfl, hanswered⟩ := hp
    cases page with
    | leaf segments => exact leads_throw
    | branch children =>
      obtain ⟨-, -, hcount, -⟩ := checkPage_branch_eq_ok.mp hpage
      dsimp only
      split
      · exact leads_throw
      rename_i last hlast
      have hchild := (self.checkPage_branch hpage).2 last (List.mem_of_getLast? hlast)
      obtain ⟨init, rfl⟩ : ∃ init, children = init ++ [last] :=
        ⟨children.dropLast, (List.dropLast_append_getLast? last hlast).symm⟩
      -- the walk of the tree goes through the page that was read
      obtain ⟨cos, hbelow⟩ : ∃ cos, Walk (self.Answered b₁.objects) (init ++ [last]) cos ss := by
        cases htree with
        | leaf hother _ => cases hother.unique hanswered
        | branch hother hwalk =>
          cases hother.unique hanswered
          exact ⟨_, by simpa using hwalk⟩
      obtain ⟨os₁, os₂, ss₁, ss₂, rfl, rfl, hinit, hlastTree⟩ := hbelow.split
      simp only [List.dropLast_concat]
      rw [countBelow_append, countBelow_cons, countBelow_nil, Nat.add_zero] at hcount
      split
      · -- the leaf becomes the neighbour of the last child
        refine alone_bind (indexPathTo_leads htopic hleaf (by omega)) fun right b₂ hright => ?_
        obtain ⟨ros, hwalk⟩ := hright.tree
        have hall := ((hinit.append hlastTree).extend hright.kept).append hwalk
        rw [List.append_assoc, List.append_assoc] at hall
        refine (writeBranch_leads htopic hall ⟨last, by simp, rfl⟩).mono fun r b' hr => ?_
        refine ⟨hright.kept.trans hr.kept, by simpa using hr.tree, ?_, by rw [hr.level]; omega⟩
        rw [hr.count, countBelow_append, List.singleton_append, countBelow_cons, countBelow_cons,
          countBelow_nil, hright.count]
        omega
      · -- the leaf goes below the last child
        rename_i hnot
        refine alone_bind (ih last.level (by omega) hlastTree rfl) fun child b₂ hr₂ => ?_
        obtain ⟨ros, hwalk⟩ := hr₂.tree
        have hlevel := hr₂.level
        rw [if_neg hnot] at hlevel
        refine (writeBranch_leads htopic ((hinit.extend hr₂.kept).append hwalk)
          ⟨child, by simp, hlevel⟩).mono fun r b' hr => ?_
        refine ⟨hr₂.kept.trans hr.kept, by simpa using hr.tree, ?_, by rw [hr.level]; omega⟩
        rw [hr.count, countBelow_append, countBelow_cons, countBelow_nil, hr₂.count]
        omega

/-- A snug tree stays snug. -/
theorem Raised.snug {b' : Bucket Client Body} {r tree : PageRef} {segments : List Segment}
    {added : Nat} (h : self.Raised b b' r segments (tree.segmentCount + added)
      (if tree.full then tree.level + 1 else tree.level)) (htree : Snug tree) (hadded : 0 < added) :
    Snug r := by
  have hcount := h.count
  have hlevel := h.level
  split at hlevel
  · rename_i hfull
    right
    rw [hlevel, hcount, Nat.add_sub_cancel, ← full_iff.mp hfull]
    omega
  · rcases htree with hzero | hlarge
    · exact .inl (hlevel.trans hzero)
    · right
      rw [hlevel, hcount]
      omega

/-! ## Sealing, migrating and appending -/

/-- A full tail is sealed; afterwards there is room in the tail. -/
theorem sealFullTail_leads (htopic : validateTopic self.topic = .ok ()) {root : Root}
    {segments : List Segment} (h : self.Packed b.objects root segments) :
    self.Leads f cl (self.sealFullTail root) b (fun root' b' => Extends b.objects b'.objects ∧
      self.Packed b'.objects root' segments ∧ root'.tail.length < pageEntries) := by
  unfold sealFullTail
  split
  · rename_i hfull
    -- the tail becomes a full leaf
    obtain ⟨os, ss, hwalk, rfl⟩ := h.holds
    have hsnug := h.snug
    unfold sealTail
    refine alone_bind (writePage_leads htopic ?_) ?_
    · intro segments heq
      cases heq
      exact hfull
    rintro leaf b₁ ⟨hkept, hanswered, hbounds⟩
    obtain ⟨hcount, hzero⟩ := leaf_bounds hbounds
    have hleaf : Walk (self.Answered b₁.objects) [leaf] [leaf.object] root.tail := by
      simpa using Walk.leaf hanswered .nil
    rcases htree : root.tree with _ | tree
    · -- the leaf is the first tree
      rw [htree] at hwalk
      cases hwalk
      refine alone_pure ⟨hkept, ⟨⟨_, _, hleaf, by simp⟩, ?_, Nat.zero_le _⟩,
        (by decide : 0 < pageEntries)⟩
      rintro r hr
      obtain rfl : leaf = r := Option.some.inj hr
      exact .inl hzero
    -- the leaf is put into the tree, which stays as low as it can be
    · rw [htree] at hwalk hsnug
      refine alone_bind (insertLeaf_leads htopic (hwalk.extend hkept) hleaf hzero) fun r b' hr => ?_
      obtain ⟨os', hwalk'⟩ := hr.tree
      refine alone_pure ⟨hkept.trans hr.kept, ⟨⟨_, _, hwalk', by simp⟩, ?_, Nat.zero_le _⟩,
        (by decide : 0 < pageEntries)⟩
      rintro r' hr'
      obtain rfl : r = r' := Option.some.inj hr'
      exact hr.snug (hsnug tree rfl) (by rw [hcount, hfull]; decide)
  · exact alone_pure ⟨.refl _, h, lt_of_le_of_ne h.tail_le ‹_›⟩

/-- Segment after segment, as long as there are any. -/
theorem migrateSegments_leads (htopic : validateTopic self.topic = .ok ()) {rest : List Segment} :
    ∀ {done : List Segment} {root : Root} {b : Bucket Client Body},
      self.Canonical b.objects root done →
      self.Leads f cl (self.migrateSegments rest root) b (fun root' b' =>
        self.Canonical b'.objects root' (done ++ rest)) := by
  induction rest with
  | nil =>
    intro done root b h
    exact alone_pure (by simpa using h)
  | cons s rest ih =>
    intro done root b h
    refine alone_bind (sealFullTail_leads htopic h.toPacked) fun root₁ b₁ hsealed => ?_
    obtain ⟨-, hpacked, hroom⟩ := hsealed
    have hpushed : self.Canonical b₁.objects { root₁ with tail := root₁.tail ++ [s] } (done ++ [s]) :=
      hpacked.push hroom rfl rfl
    refine (ih hpushed).mono fun root' b' hroot' => ?_
    simpa using hroot'

theorem canonical_empty {root : Root} (htree : root.tree = none) (htail : root.tail = []) :
    self.Canonical content root [] where
  holds := ⟨[], [], by rw [htree]; exact .nil, by rw [htail]; rfl⟩
  snug := by simp [htree]
  tail_le := by simp [htail]
  compact := fun _ => htree

theorem migrateManifest_leads (htopic : validateTopic self.topic = .ok ()) (legacy : Manifest)
    (nowMs : Nat) : self.Leads f cl (self.migrateManifest legacy nowMs) b (fun root b' =>
      self.Canonical b'.objects root legacy.segments) := by
  unfold migrateManifest
  refine alone_bind (migrateSegments_leads htopic (canonical_empty rfl rfl)) fun root b' hroot => ?_
  have hpacked : self.Packed b'.objects root legacy.segments := by simpa using hroot.toPacked
  exact alone_pure ⟨hpacked.congr rfl rfl, hroot.compact⟩

/-- One batch is entered as the last segment of the tail. -/
theorem appendAddition_leads (htopic : validateTopic self.topic = .ok ()) (receivedAtMs : Nat)
    (addition : List Record × Int) {root : Root} {segments : List Segment}
    (h : self.Packed b.objects root segments) :
    self.Leads f cl (self.appendAdditions receivedAtMs [addition] root) b (fun root' b' =>
      ∃ s, root'.tail.getLast? = some s ∧ s.IsOf addition ∧
        self.Canonical b'.objects root' (segments ++ [s])) := by
  unfold appendAdditions
  refine alone_bind (sealFullTail_leads htopic h) fun root₁ b₁ hsealed => ?_
  obtain ⟨-, hpacked, hroom⟩ := hsealed
  refine leads_check_bind fun encoded _ => alone_ask ?_
  rintro id b₂ ⟨-, rfl⟩
  refine leads_check_bind fun revision _ => ?_
  dsimp only
  refine leads_create fun b' hfree hb' => ?_
  have hkept : Extends b₁.objects b'.objects := by
    rw [hb']
    exact extends_update hfree
  exact alone_pure ⟨_, List.getLast?_concat .., ⟨rfl, rfl⟩,
    (hpacked.extend hkept).push hroom rfl rfl⟩

/-! ## Rebuilding -/

/-- The pages are written one by one, and all of them can be read afterwards. -/
theorem writePages_leads (htopic : validateTopic self.topic = .ok ()) {pages : List Page}
    (hfull : ∀ segments, Page.leaf segments ∈ pages → segments.length = pageEntries) :
    self.Leads f cl (self.writePages pages) b (fun refs b' => Extends b.objects b'.objects ∧
      List.Forall₂ (self.Answered b'.objects) refs.1 pages) := by
  induction pages generalizing b with
  | nil => exact alone_pure ⟨.refl _, .nil⟩
  | cons page pages ih =>
    unfold writePages
    refine alone_bind (writePage_leads htopic fun segments heq => hfull _ (by simp [heq])) ?_
    intro r b₁ hr
    refine alone_bind (ih fun segments hmem => hfull _ (by simp [hmem])) fun refs b' hrefs => ?_
    exact alone_pure ⟨hr.1.trans hrefs.1, .cons (hr.2.1.mono hrefs.1) hrefs.2⟩

theorem walk_of_leaves {refs : List PageRef} {parts : List (List Segment)}
    (h : List.Forall₂ (self.Answered content) refs (parts.map .leaf)) :
    Walk (self.Answered content) refs (refs.map (·.object)) parts.flatten := by
  induction parts generalizing refs with
  | nil =>
    cases h
    exact .nil
  | cons part parts ih =>
    cases h with
    | cons hpage hrest => exact .leaf hpage (ih hrest)

theorem snug_of_leaves {refs : List PageRef} {parts : List (List Segment)}
    (h : List.Forall₂ (self.Answered content) refs (parts.map .leaf)) : ∀ r ∈ refs, Snug r := by
  induction parts generalizing refs with
  | nil =>
    cases h
    simp
  | cons part parts ih =>
    cases h with
    | cons hpage hrest =>
      obtain ⟨-, -, hlevel, -⟩ := checkPage_leaf.mp hpage.check
      exact List.forall_mem_cons.mpr ⟨.inl hlevel, ih hrest⟩

/-- A level of branches over a level of pages: one page more for each branch. -/
theorem walk_of_branches {refs : List PageRef} {parts : List (List PageRef)} {os : List String}
    {ss : List Segment} (h : List.Forall₂ (self.Answered content) refs (parts.map .branch))
    (hwalk : Walk (self.Answered content) parts.flatten os ss) :
    ∃ os', Walk (self.Answered content) refs os' ss ∧ os'.length = os.length + refs.length := by
  induction parts generalizing refs os ss with
  | nil =>
    cases h
    exact ⟨os, hwalk, rfl⟩
  | cons part parts ih =>
    cases h with
    | @cons r _ refs _ hpage hrest =>
      rw [List.flatten_cons] at hwalk
      obtain ⟨os₁, os₂, ss₁, ss₂, rfl, rfl, hbelow, hafter⟩ := hwalk.split
      obtain ⟨os', hwalk', hlength⟩ := ih hrest hafter
      have htree : Walk (self.Answered content) [r] (r.object :: os₁) ss₁ :=
        .branch hpage (by simpa using hbelow)
      refine ⟨_, htree.append hwalk', ?_⟩
      simp only [List.length_append, List.length_cons, hlength]
      omega

/-- A branch over more than one page could not be lower. -/
theorem Answered.snug {r : PageRef} {children : List PageRef}
    (h : self.Answered content r (.branch children)) (hmany : 1 < children.length) : Snug r := by
  obtain ⟨-, -, hcount, -, -, -, hrow⟩ := checkPage_branch_eq_ok.mp h.check
  obtain _ | ⟨c, _ | ⟨d, rest⟩⟩ := children
  · simp at hmany
  · simp at hmany
  · have hfull := hrow.head_full (by simp)
    have hd := (validatePageRef_eq_ok.mp (hrow.valid d (by simp))).2.2.2.2.1
    right
    rw [← hcount, countBelow_cons, countBelow_cons, hfull]
    omega

/-- Levels of branches, up to one page. The count in advance follows the levels. -/
theorem writeBranches_leads (htopic : validateTopic self.topic = .ok ()) {ss : List Segment}
    {maximum total : Nat} {pages : List PageRef} :
    ∀ {b : Bucket Client Body} {os : List String} {below count : Nat},
      Walk (self.Answered b.objects) pages os ss →
      (pages.length = 1 → ∀ r ∈ pages, Snug r) → os.length = below + pages.length →
      countPages pages.length count maximum = .ok total →
      self.Leads f cl (self.writeBranches pages) b (fun pages' b' => pages'.length ≤ 1 ∧
        (∀ r ∈ pages', Snug r) ∧ ∃ os', Walk (self.Answered b'.objects) pages' os' ss ∧
          os'.length + count = total + below) := by
  induction hk : pages.length using Nat.strong_induction_on generalizing pages with
  | _ k ih =>
  intro b os below count hwalk hsnug hlength hcount
  rw [writeBranches]
  split
  · rename_i hmany
    -- one more level: its pages are counted before it is written
    rw [countPages, if_neg (by omega), bind_eq_ok] at hcount
    obtain ⟨count', hsum, hcount⟩ := hcount
    rw [okOr_eq_ok, checkedAddU64_eq_some] at hsum
    obtain ⟨-, rfl⟩ := hsum
    rw [if_neg (by omega), ← hk, ← length_chunks pages] at hcount
    refine alone_bind (writePages_leads htopic fun _ hmem => by simp at hmem) ?_
    rintro ⟨parents, hparents⟩ b₁ ⟨hkept, hanswered⟩
    rw [List.length_map] at hparents
    simp only at hanswered
    have hflat : Walk (self.Answered b₁.objects) (chunks pages).flatten os ss := by
      rw [flatten_chunks]
      exact hwalk.extend hkept
    obtain ⟨os', hwalk', hlength'⟩ := walk_of_branches hanswered hflat
    have hone : parents.length = 1 → ∀ r ∈ parents, Snug r := by
      intro hone r hr
      obtain ⟨part, hpart⟩ := List.length_eq_one_iff.mp (hparents.symm.trans hone)
      have hall : part = pages := by
        have := flatten_chunks pages
        rwa [hpart, List.flatten_singleton] at this
      rw [hpart, hall, List.map_singleton] at hanswered
      cases hanswered with
      | cons hpage hnil =>
        cases hnil
        obtain rfl := List.mem_singleton.mp hr
        exact hpage.snug hmany
    rw [← hparents] at hcount
    refine (ih parents.length ?_ rfl hwalk' hone (by omega) hcount).mono ?_
    · rw [hparents, ← hk]
      exact length_chunks_lt hmany
    · rintro pages' b' ⟨hfew, hsnug', os'', hwalk'', htotal⟩
      exact ⟨hfew, hsnug', os'', hwalk'', by omega⟩
  · rename_i hfew
    refine alone_pure ⟨by omega, ?_, os, hwalk, ?_⟩
    · intro r hr
      refine hsnug ?_ r hr
      have := List.length_pos_of_mem hr
      omega
    · rw [countPages] at hcount
      split at hcount
      · have htotal := Except.ok.inj hcount
        omega
      · rw [bind_eq_ok] at hcount
        obtain ⟨count', hsum, hcount⟩ := hcount
        rw [okOr_eq_ok, checkedAddU64_eq_some] at hsum
        obtain ⟨-, rfl⟩ := hsum
        rw [if_pos (by omega)] at hcount
        have htotal := Except.ok.inj hcount
        omega

/-- The new root is canonical, and the objects were counted in advance. -/
theorem rebuildIndex_leads (htopic : validateTopic self.topic = .ok ()) (segments : List Segment)
    (startOffset nextOffset : Int) (maximum : Nat) :
    self.Leads f cl (self.rebuildIndex segments startOffset nextOffset maximum) b (fun root b' =>
      self.Canonical b'.objects root segments ∧ ∃ os ss,
        Walk (self.Answered b'.objects) root.tree.toList os ss ∧ segments = ss ++ root.tail ∧
          segments.length + os.length ≤ maximum) := by
  unfold rebuildIndex
  refine leads_check_bind fun total htotal => ?_
  dsimp only
  split
  · exact leads_throw
  rename_i hbudget
  generalize hsealed : (segments.length - 1) / pageEntries * pageEntries = sealedCount at *
  have hle : sealedCount ≤ segments.length := by
    rw [← hsealed]
    exact (Nat.div_mul_le_self _ _).trans (Nat.sub_le _ _)
  have htake : (segments.take sealedCount).length = sealedCount := by
    rw [List.length_take]
    omega
  have hdvd : pageEntries ∣ (segments.take sealedCount).length := by
    rw [htake, ← hsealed]
    exact Nat.dvd_mul_left _ _
  refine alone_bind (writePages_leads htopic fun part hpart => ?_) ?_
  · obtain ⟨part', hpart', heq⟩ := List.mem_map.mp hpart
    cases heq
    exact length_of_mem_chunks_of_dvd hdvd part hpart'
  rintro ⟨leaves, hleaves⟩ b₁ ⟨hkept, hanswered⟩
  simp only at hanswered
  have hwalk := walk_of_leaves hanswered
  rw [flatten_chunks] at hwalk
  have hlength : leaves.length = sealedCount / pageEntries := by
    rw [hleaves, List.length_map, length_chunks, htake]
    obtain ⟨k, hk⟩ := hdvd
    rw [htake] at hk
    rw [hk]
    simp only [pageEntries]
    omega
  have hobjects : (leaves.map (·.object)).length = 0 + leaves.length := by simp
  rw [← hlength] at htotal
  refine alone_bind (writeBranches_leads htopic hwalk (fun _ => snug_of_leaves hanswered) hobjects
    htotal) ?_
  rintro pages b' ⟨hfew, hsnug, os, hwalk', hcount⟩
  -- at most one page is left: the tree
  have htree : (pages.getLast?).toList = pages := by
    rcases pages with _ | ⟨r, _ | ⟨d, rest⟩⟩
    · rfl
    · rfl
    · simp at hfew
  have hsplit := List.take_append_drop sealedCount segments
  refine alone_pure ⟨⟨⟨⟨os, _, htree.symm ▸ hwalk', hsplit.symm⟩, fun r hr => ?_, ?_⟩, fun hnil => ?_⟩,
    os, _, htree.symm ▸ hwalk', hsplit.symm, by omega⟩
  · exact hsnug r (List.mem_of_getLast? hr)
  · simp only [List.length_drop, pageEntries] at *
    omega
  · -- without a tail there was nothing to seal
    have hdrop : segments.length ≤ sealedCount := List.drop_eq_nil_iff.mp hnil
    have hzero : (segments.take sealedCount).length = 0 := by
      simp only [pageEntries] at hsealed
      omega
    rw [hwalk'.count (Answered.checked b'.objects)] at hzero
    rcases pages with _ | ⟨r, rest⟩
    · rfl
    · obtain ⟨_, _, _, _, -, -, hfirst, -⟩ := hwalk'.split_head
      have hpos := (validatePageRef_eq_ok.mp (Walk.root_valid hfirst)).2.2.2.2.1
      rw [countBelow_cons] at hzero
      omega

end Alone

/-! ## Whole appends -/

/-- After sealing there is nothing to seal. -/
theorem sealFullTail_bind_sealFullTail (root : Root) :
    self.sealFullTail root >>= self.sealFullTail = self.sealFullTail root := by
  unfold sealFullTail
  split
  · -- the sealed root has an empty tail
    unfold sealTail
    cases root.tree <;> simp [pageEntries]
  · rename_i hroom
    rw [pure_bind, if_neg hroom]

/-- Batches are entered one by one. -/
theorem appendAdditions_cons (receivedAtMs : Nat) (addition : List Record × Int)
    (additions : List (List Record × Int)) (root : Root) :
    self.appendAdditions receivedAtMs (addition :: additions) root =
      self.appendAdditions receivedAtMs [addition] root >>=
        self.appendAdditions receivedAtMs additions := by
  simp only [appendAdditions, bind_assoc, pure_bind]

/-! ## Counting what is written -/

section Talks

variable {transcript : List (Exchange (Cmd Body) Resp)}

/-- How many objects were written. -/
def writes (transcript : List (Exchange (Cmd Body) Resp)) : Nat :=
  transcript.countP fun exchange =>
    match exchange.command with
    | .put _ _ _ => true
    | _ => false

@[simp] theorem writes_nil : writes [] = 0 := rfl

@[simp] theorem writes_append (before after : List (Exchange (Cmd Body) Resp)) :
    writes (before ++ after) = writes before + writes after := List.countP_append

theorem talks_check_bind {α β : Type} {r : Except LogError β} {g : β → Engine α} {a : α}
    (h : (do g (← Engine.check r)).run.Talks transcript (.ok a)) :
    ∃ b, r = .ok b ∧ (g b).run.Talks transcript (.ok a) := by
  cases r with
  | ok b => exact ⟨b, rfl, h⟩
  | error e => cases h

theorem writePage_writes {page : Page} {r : PageRef}
    (h : (self.writePage page).run.Talks transcript (.ok r)) : writes transcript = 1 := by
  unfold writePage at h
  obtain ⟨bounds, -, h⟩ := talks_check_bind h
  dsimp only at h
  split at h
  · cases h
  obtain ⟨id, asked, rfl, hasked⟩ := talks_run_perform h
  obtain ⟨_, -, hput⟩ := talks_check_bind hasked
  obtain ⟨answer, after, rfl, hafter⟩ := talks_run_perform hput
  cases answer with
  | ok version =>
    cases hafter
    rfl
  | error e => cases hafter

theorem writePages_writes {pages : List Page}
    {refs : {refs : List PageRef // refs.length = pages.length}}
    (h : (self.writePages pages).run.Talks transcript (.ok refs)) :
    writes transcript = pages.length := by
  induction pages generalizing transcript with
  | nil =>
    obtain ⟨rfl, -⟩ := talks_run_pure h
    rfl
  | cons page pages ih =>
    unfold writePages at h
    rcases talks_run_bind h with ⟨e, -, he⟩ | ⟨before, after, r, rfl, hfirst, h⟩
    · cases he
    rcases talks_run_bind h with ⟨e, -, he⟩ | ⟨middle, after, rest, rfl, hrest, h⟩
    · cases he
    obtain ⟨rfl, -⟩ := talks_run_pure h
    rw [List.append_nil, writes_append, writePage_writes hfirst, ih hrest, List.length_cons]
    omega

theorem writeBranches_writes {maximum total : Nat} {pages : List PageRef} :
    ∀ {transcript : List (Exchange (Cmd Body) Resp)} {pages' : List PageRef} {count : Nat},
      (self.writeBranches pages).run.Talks transcript (.ok pages') →
      countPages pages.length count maximum = .ok total →
      total = count + pages.length + writes transcript := by
  -- on the number of pages, which every level of branches lowers
  induction hk : pages.length using Nat.strong_induction_on generalizing pages with
  | _ k ih =>
  intro transcript pages' count h hcount
  rw [writeBranches] at h
  rw [countPages] at hcount
  -- a level of branches is written: as many as are counted for it
  split at h
  · rename_i hmany
    rcases talks_run_bind h with ⟨e, -, he⟩ | ⟨before, after, parents, rfl, hlevel, h⟩
    · cases he
    obtain ⟨parents, hparents⟩ := parents
    have hwrites := writePages_writes hlevel
    rw [List.length_map] at hparents hwrites
    rw [if_neg (by omega), bind_eq_ok] at hcount
    obtain ⟨count', hsum, hcount⟩ := hcount
    rw [okOr_eq_ok, checkedAddU64_eq_some] at hsum
    obtain ⟨-, rfl⟩ := hsum
    rw [if_neg (by omega), ← hk, ← length_chunks pages, ← hparents] at hcount
    have hlt : parents.length < k := by
      rw [hparents, ← hk]
      exact length_chunks_lt hmany
    have htotal := ih parents.length hlt rfl h hcount
    rw [writes_append, hwrites]
    omega
  -- one page is left, or none
  · obtain ⟨rfl, -⟩ := talks_run_pure h
    rw [writes_nil]
    split at hcount
    · have htotal := Except.ok.inj hcount
      omega
    · obtain ⟨count', hsum, hcount⟩ := bind_eq_ok.mp hcount
      rw [okOr_eq_ok, checkedAddU64_eq_some] at hsum
      obtain ⟨-, rfl⟩ := hsum
      rw [if_pos (by omega)] at hcount
      have htotal := Except.ok.inj hcount
      omega

/-- Whatever the store answers: a rebuild that succeeds has written as many pages as it has
counted in advance. -/
theorem rebuildIndex_writes {segments : List Segment} {startOffset nextOffset : Int} {maximum : Nat}
    {root : Root}
    (h : (self.rebuildIndex segments startOffset nextOffset maximum).run.Talks transcript (.ok root)) :
    countPages ((segments.length - 1) / pageEntries * pageEntries / pageEntries) segments.length
      maximum = .ok (segments.length + writes transcript) := by
  unfold rebuildIndex at h
  obtain ⟨total, htotal, h⟩ := talks_check_bind h
  dsimp only at h
  split at h
  · cases h
  -- the pages of the leaves, and those of the branches above them
  rcases talks_run_bind h with ⟨e, -, he⟩ | ⟨before, after, leaves, rfl, hleaves, h⟩
  · cases he
  rcases talks_run_bind h with ⟨e, -, he⟩ | ⟨middle, after, pages, rfl, hbranches, h⟩
  · cases he
  obtain ⟨rfl, -⟩ := talks_run_pure h
  have hwrites := writePages_writes hleaves
  obtain ⟨leaves, hlength⟩ := leaves
  rw [List.length_map, length_chunks, List.length_take] at hlength hwrites
  -- as many leaves as were counted in advance
  have hlevel : leaves.length = (segments.length - 1) / pageEntries * pageEntries / pageEntries := by
    rw [hlength]
    simp only [pageEntries]
    omega
  rw [htotal]
  rw [← hlevel] at htotal
  rw [writeBranches_writes hbranches htotal, List.append_nil, writes_append, hwrites, ← hlength,
    Nat.add_assoc]

end Talks

/-! ## Every way to build an index -/

section Builders

variable {Client : Type}

/-- The index of the root was built over these segments: by appends from an empty root, by
migration or by a rebuild, and by any further appends. -/
inductive Builds (log : PartitionLog) : Bucket Client Body → Root → List Segment → Prop where
  | empty {b : Bucket Client Body} {root : Root} (htree : root.tree = none)
      (htail : root.tail = []) : Builds log b root []
  /-- One turn of the loop over new batches. -/
  | append {b b' : Bucket Client Body} {root root' : Root} {segments : List Segment} {s : Segment}
      {f : Faults} {cl : Client} {receivedAtMs : Nat} {addition : List Record × Int}
      {cs : List (Cmd Body)} (h : Builds log b root segments)
      (hrun : Runs (Bucket.Executes f log.crates.size cl) b
        (log.appendAdditions receivedAtMs [addition] root).run cs (.ok root') b')
      (hs : root'.tail.getLast? = some s) : Builds log b' root' (segments ++ [s])
  | migrate {b b' : Bucket Client Body} {root : Root} {legacy : Manifest} {nowMs : Nat}
      {f : Faults} {cl : Client} {cs : List (Cmd Body)}
      (hrun : Runs (Bucket.Executes f log.crates.size cl) b (log.migrateManifest legacy nowMs).run
        cs (.ok root) b') : Builds log b' root legacy.segments
  | rebuild {b b' : Bucket Client Body} {root : Root} {segments : List Segment}
      {startOffset nextOffset : Int} {maximum : Nat} {f : Faults} {cl : Client}
      {cs : List (Cmd Body)}
      (hrun : Runs (Bucket.Executes f log.crates.size cl) b
        (log.rebuildIndex segments startOffset nextOffset maximum).run cs (.ok root) b') :
      Builds log b' root segments
  /-- The store changes, but not where the pages of the tree are. -/
  | later {b b' : Bucket Client Body} {root : Root} {segments : List Segment}
      (h : Builds log b root segments)
      (hkept : ∀ os ss, Walk (log.Answered b.objects) root.tree.toList os ss → ∀ o ∈ os,
        b'.objects (log.crates.pathFrom o) = b.objects (log.crates.pathFrom o)) :
      Builds log b' root segments
  /-- Other fields of the root are set. -/
  | adopt {b : Bucket Client Body} {root root' : Root} {segments : List Segment}
      (h : Builds log b root segments) (htree : root'.tree = root.tree)
      (htail : root'.tail = root.tail) : Builds log b root' segments

/-- However it was built, an index is canonical. -/
theorem Builds.canonical (htopic : validateTopic self.topic = .ok ()) {b : Bucket Client Body}
    {root : Root} {segments : List Segment} (h : self.Builds b root segments) :
    self.Canonical b.objects root segments := by
  induction h with
  | empty htree htail => exact canonical_empty htree htail
  | append _ hrun hs ih =>
    obtain ⟨s', hs', -, hcanonical⟩ :=
      (appendAddition_leads htopic _ _ ih.toPacked _ _ _ hrun).1 _ rfl
    obtain rfl : s' = _ := Option.some.inj (hs'.symm.trans hs)
    exact hcanonical
  | migrate hrun => exact (migrateManifest_leads htopic _ _ _ _ _ hrun).1 _ rfl
  | rebuild hrun => exact ((rebuildIndex_leads htopic _ _ _ _ _ _ _ hrun).1 _ rfl).1
  | @later b b' root segments _ hkept ih =>
    obtain ⟨os, ss, hwalk, heq⟩ := ih.holds
    refine ⟨⟨⟨os, ss, hwalk.imp fun r p hr hpage => ?_, heq⟩, ih.snug, ih.tail_le⟩, ih.compact⟩
    exact hpage.congr (hkept os ss hwalk _ hr)
  | adopt _ htree htail ih =>
    refine ⟨ih.toPacked.congr htree htail, fun hnil => ?_⟩
    rw [htree]
    exact ih.compact (htail ▸ hnil)

/-- A loop over new batches appends a segment for each. -/
theorem Builds.appends (htopic : validateTopic self.topic = .ok ()) {f : Faults} {cl : Client}
    {receivedAtMs : Nat} {additions : List (List Record × Int)} :
    ∀ {b b' : Bucket Client Body} {root root' : Root} {segments : List Segment}
      {cs : List (Cmd Body)}, self.Builds b root segments →
      Runs (Bucket.Executes f self.crates.size cl) b
        (self.appendAdditions receivedAtMs additions root).run cs (.ok root') b' →
      ∃ added, List.Forall₂ Segment.IsOf added additions ∧
        self.Builds b' root' (segments ++ added) := by
  induction additions with
  | nil =>
    intro b b' root root' segments cs h hrun
    cases hrun
    exact ⟨[], .nil, by simpa using h⟩
  | cons addition additions ih =>
    intro b b' root root' segments cs h hrun
    -- the first batch, and then the others
    rw [appendAdditions_cons] at hrun
    obtain ⟨cs₁, cs₂, outcome, b₁, rfl, hfirst, hrest⟩ :=
      runs_bind (p := (self.appendAdditions receivedAtMs [addition] root).run) hrun
    cases outcome with
    | error e => cases hrest
    | ok root₁ =>
      obtain ⟨s, hs, hof, -⟩ := (appendAddition_leads htopic receivedAtMs addition
        (h.canonical htopic).toPacked _ _ _ hfirst).1 _ rfl
      obtain ⟨added, hadded, hbuilt⟩ := ih (.append h hfirst hs) hrest
      exact ⟨s :: added, .cons hof hadded, by simpa using hbuilt⟩

/-- The manifest an append starts from: an index that was built over the segments, or the list of
the first schema. -/
def BuildsManifest (log : PartitionLog) (b : Bucket Client Body) :
    LogManifest → List Segment → Prop
  | .indexed root, segments => log.Builds b root segments
  | .legacy legacy, segments => legacy.segments = segments

/-- The tail is sealed before the loop if it is full, and then not again in its first turn. -/
theorem sealFullTail_bind_appendAdditions (receivedAtMs : Nat) (root : Root)
    {additions : List (List Record × Int)} (hne : additions ≠ []) :
    self.sealFullTail root >>= self.appendAdditions receivedAtMs additions =
      self.appendAdditions receivedAtMs additions root := by
  obtain ⟨⟨records, baseOffset⟩, rest, rfl⟩ := List.exists_cons_of_ne_nil hne
  conv_rhs => rw [appendAdditions, ← sealFullTail_bind_sealFullTail, bind_assoc]
  exact bind_congr fun root => by rw [appendAdditions]

/-- What an append does to the index, whichever manifest it starts from. -/
theorem BuildsManifest.appends (htopic : validateTopic self.topic = .ok ()) {f : Faults}
    {cl : Client} {receivedAtMs : Nat} {additions : List (List Record × Int)}
    (hne : additions ≠ []) {b b' : Bucket Client Body} {manifest : LogManifest}
    {segments : List Segment} {root' : Root} {cs : List (Cmd Body)}
    (h : self.BuildsManifest b manifest segments)
    (hrun : Runs (Bucket.Executes f self.crates.size cl) b
      (do
        let root ← self.appendRoot manifest receivedAtMs
        self.appendAdditions receivedAtMs additions root).run cs (.ok root') b') :
    ∃ added, List.Forall₂ Segment.IsOf added additions ∧
      self.Builds b' root' (segments ++ added) := by
  -- sealing the tail twice is sealing it once
  simp only [appendRoot, bind_assoc, sealFullTail_bind_appendAdditions _ _ hne] at hrun
  cases manifest with
  | indexed root =>
    rw [adoptManifest] at hrun
    -- an older root is adopted first
    split at hrun
    · refine Builds.appends htopic ?_ hrun
      exact .adopt h rfl rfl
    · exact Builds.appends htopic h hrun
  | legacy legacy =>
    obtain ⟨cs₁, cs₂, outcome, b₁, rfl, hfirst, hrest⟩ :=
      runs_bind (p := (self.migrateManifest legacy receivedAtMs).run) hrun
    cases outcome with
    | error e => cases hrest
    | ok root₁ =>
      obtain rfl : legacy.segments = segments := h
      exact (Builds.migrate hfirst).appends htopic hrest

/-- **The builders agree.** Take any two indexes, each built from nothing, by migration or by a
rebuild, and then by any number of appends. If their segments correspond, one by one and with the
same offsets, then so do their tails, and the trees have the same shape, with the same bounds on
every page and with corresponding segments in every leaf. Equal segments are the case `R = Eq`.

An append, to an index or to a manifest of the first schema, is such a step; a rebuild has
counted in advance the segments and the pages that it then writes; and where nothing fails and
nobody else is at work, every builder comes to an end with an index. -/
theorem index_builders_agree (log : PartitionLog) (htopic : validateTopic log.topic = .ok ()) :
    (∀ (b b' : Bucket Client Body) (root root' : Root) (segments segments' : List Segment),
      log.Builds b root segments → log.Builds b' root' segments' →
      log.Holding b.objects root segments ∧ log.Holding b'.objects root' segments' ∧
      ∀ R : Segment → Segment → Prop, (∀ s s', R s s' → s.SameRange s') →
        List.Forall₂ R segments segments' →
        List.Forall₂ R root.tail root'.tail ∧
          Alike (log.Answered b.objects) (log.Answered b'.objects) R root.tree.toList
            root'.tree.toList) ∧
    (∀ (f : Faults) (cl : Client) (b b' : Bucket Client Body) (manifest : LogManifest)
      (segments : List Segment) (receivedAtMs : Nat) (additions : List (List Record × Int))
      (root' : Root) (cs : List (Cmd Body)),
      log.BuildsManifest b manifest segments → additions ≠ [] →
      Runs (Bucket.Executes f log.crates.size cl) b
        (do
          let root ← log.appendRoot manifest receivedAtMs
          log.appendAdditions receivedAtMs additions root).run cs (.ok root') b' →
      ∃ added, List.Forall₂ Segment.IsOf added additions ∧
        log.Builds b' root' (segments ++ added)) ∧
    (∀ (transcript : List (Exchange (Cmd Body) Resp)) (segments : List Segment)
      (startOffset nextOffset : Int) (maximum : Nat) (root : Root),
      (log.rebuildIndex segments startOffset nextOffset maximum).run.Talks transcript (.ok root) →
      countPages ((segments.length - 1) / pageEntries * pageEntries / pageEntries) segments.length
        maximum = .ok (segments.length + writes transcript)) ∧
    ∀ (cl : Client) (b : Bucket Client Body), IndexPagesFit log → log.FreeNames b →
      log.BuildersComplete cl b := by
  -- the four parts: agreement, appends, the budget, and that the builders come to an end
  refine ⟨?_, ?_, ?_, fun cl b hfits hfree => builders_complete htopic hfits hfree⟩
  · intro b b' root root' segments segments' h h'
    have hcanonical := h.canonical htopic
    have hcanonical' := h'.canonical htopic
    refine ⟨hcanonical.holds, hcanonical'.holds, fun R hR hsegments => ?_⟩
    exact hcanonical.agree hR hcanonical' hsegments
  · intro f cl b b' manifest segments receivedAtMs additions root' cs h hne hrun
    exact BuildsManifest.appends htopic hne h hrun
  · intro transcript segments startOffset nextOffset maximum root h
    exact rebuildIndex_writes h

end Builders

end PartitionLog

namespace Reference

open PartitionLog

/-- One batch of one record after the other. -/
def batchesFrom : Nat → Int → List (List Record × Int)
  | 0, _ => []
  | n + 1, next => ([plainRecord], next) :: batchesFrom n (next + 1)

@[simp] theorem length_batchesFrom (n : Nat) (next : Int) : (batchesFrom n next).length = n := by
  induction n generalizing next with
  | zero => rfl
  | succ n ih => simp [batchesFrom, ih]

theorem batchesFrom_tiles (n : Nat) (next : Int) :
    AdditionTiles (batchesFrom n next) next (next + n) := by
  induction n generalizing next with
  | zero => simp [batchesFrom]
  | succ n ih =>
    have hrest := ih (next + 1)
    refine ⟨rfl, ?_, ?_⟩
    · simp
    · rwa [Nat.cast_add_one, Int.add_comm (n : Int), ← Int.add_assoc]

theorem batchesFrom_admitted {n : Nat} {next : Int} :
    ∀ a ∈ batchesFrom n next, ∃ fingerprint, log.Admitted (a.1, fingerprint) := by
  induction n generalizing next with
  | zero => simp [batchesFrom]
  | succ n ih =>
    intro a ha
    rcases List.mem_cons.mp ha with rfl | ha
    · exact ⟨_, plain_admitted⟩
    · exact ih a ha

/-- UUIDs for one builder. -/
def uuidsFrom (base : Nat) : List Uuid := (List.range' base 5000).map (BitVec.ofNat 128)

@[simp] theorem length_uuidsFrom (base : Nat) : (uuidsFrom base).length = 5000 := by
  simp [uuidsFrom]

theorem uuidsFrom_nodup {base : Nat} (_ : base ≤ 90000) : (uuidsFrom base).Nodup := by
  refine List.Nodup.map_on (fun i hi j hj heq => ?_) List.nodup_range'
  rw [List.mem_range'_1] at hi hj
  have hvalue := congrArg BitVec.toNat heq
  simp only [BitVec.toNat_ofNat] at hvalue
  omega

theorem uuidsFrom_disjoint {base base' : Nat} (h : base + 5000 ≤ base') (h' : base' ≤ 90000)
    {id : Uuid} (hid : id ∈ uuidsFrom base) : id ∉ uuidsFrom base' := by
  intro hid'
  obtain ⟨i, hi, rfl⟩ := List.mem_map.mp hid
  obtain ⟨j, hj, heq⟩ := List.mem_map.mp hid'
  rw [List.mem_range'_1] at hi hj
  have hvalue := congrArg BitVec.toNat heq
  simp only [BitVec.toNat_ofNat] at hvalue
  omega

/-- An index in a store where all but the first `base` UUIDs are left. -/
structure Built (b : Bucket Unit Body) (root : Root) (segments : List Segment) (next : Int)
    (base : Nat) : Prop where
  free : log.FreeNames b
  stands : log.Stands b.objects root segments next
  builds : log.Builds b root segments
  revision_le : root.revision ≤ segments.length
  left : ∀ k, base ≤ k → k ≤ 90000 → ∀ id ∈ uuidsFrom k, id ∉ b.issued

variable {b : Bucket Unit Body} {root : Root} {segments : List Segment} {next : Int} {base : Nat}

/-- After a builder that took its UUIDs from `base` on. -/
private theorem Built.left_after (h : Built b root segments next base) {b' : Bucket Unit Body}
    (hissued : ∀ id ∈ b'.issued, id ∈ b.issued ∨ id ∈ uuidsFrom base) {k : Nat}
    (hk : base + 5000 ≤ k) (hmax : k ≤ 90000) {id : Uuid} (hid : id ∈ uuidsFrom k) :
    id ∉ b'.issued := by
  intro hmem
  rcases hissued id hmem with hold | hnew
  · exact h.left k (by omega) hmax id hid hold
  · exact uuidsFrom_disjoint hk hmax hnew hid

/-- Batches are appended to an index. -/
theorem Built.append (h : Built b root segments next base) (hcomplete : log.BuildersComplete () b)
    {n : Nat} (hn : 0 < n) (hcount : 34 * segments.length + 36 * n ≤ 4900) (hbase : base ≤ 80000)
    (hnext : next + n ≤ i64Max) : ∃ b' root' added,
      List.Forall₂ Segment.IsOf added (batchesFrom n next) ∧
        Built b' root' (segments ++ added) (next + n) (base + 5000) := by
  -- the revision and the ids that are left suffice
  have hrevision := h.revision_le
  have hroom : root.revision + (batchesFrom n next).length ≤ u64Max := by
    rw [length_batchesFrom]
    unfold u64Max
    omega
  have happend := hcomplete.append (.indexed root) segments next (next + n) 0 (batchesFrom n next)
    h.stands (batchesFrom_tiles n next) hnext batchesFrom_admitted hroom
  rw [length_batchesFrom] at happend
  have hnodup : (uuidsFrom base).Nodup := uuidsFrom_nodup (by omega)
  obtain ⟨cs, root', b', hrun, hfree, ⟨hrevision', added, hof, hstands⟩, hissued⟩ :=
    happend.exists_run hnodup (by rw [length_uuidsFrom]; omega) (h.left base le_rfl (by omega))
  have hne : batchesFrom n next ≠ [] := by
    rw [← List.length_pos_iff, length_batchesFrom]
    exact hn
  have hbuilds : log.BuildsManifest b (.indexed root) segments := h.builds
  -- the run has built what was promised, on the segments of before
  obtain ⟨added', -, hbuilt⟩ := hbuilds.appends topic_valid hne hrun
  have hsame := hstands.holding.unique (hbuilt.canonical topic_valid).holds
  refine ⟨b', root', added, hof, hfree, hstands, hsame ▸ hbuilt, ?_,
    fun k hk hmax id hid => h.left_after hissued hk hmax hid⟩
  have hlength := hof.length_eq
  rw [length_batchesFrom] at hlength
  rw [hrevision', List.length_append, hlength]
  exact Nat.add_le_add_right h.revision_le n

/-- The index is written anew. -/
theorem Built.rebuild (h : Built b root segments next base) (hcomplete : log.BuildersComplete () b)
    (hlength : segments.length = 65) (hbase : base ≤ 80000) (hnext : next ≤ i64Max) :
    ∃ b' root', Built b' root' segments next (base + 5000) := by
  have htotal : countPages ((segments.length - 1) / pageEntries * pageEntries / pageEntries)
      segments.length 66 = .ok 66 := by
    rw [hlength, countPages]
    rfl
  have hrebuild := hcomplete.rebuild segments root.startOffset next 66 66
    (h.stands.contiguous hnext) htotal le_rfl
  have hnodup : (uuidsFrom base).Nodup := uuidsFrom_nodup (by omega)
  obtain ⟨cs, root', b', hrun, hfree, ⟨hrebuilt, hstands⟩, hissued⟩ :=
    hrebuild.exists_run hnodup (by rw [length_uuidsFrom]; omega) (h.left base le_rfl (by omega))
  have hrevision : root'.revision = 0 := congrArg Root.revision hrebuilt.fields
  exact ⟨b', root', hfree, hstands, .rebuild hrun, hrevision ▸ Nat.zero_le _,
    fun k hk hmax id hid => h.left_after hissued hk hmax hid⟩

/-- 65 batches are appended to an empty index, and then one more, directly and after the index
was written anew. -/
theorem index_builders_agree_rebuilt : ∃ (b b' : Bucket Unit Body) (root root' : Root)
    (segments : List Segment) (s s' : Segment), segments.length = 65 ∧
      log.Builds b root (segments ++ [s]) ∧ log.Builds b' root' (segments ++ [s']) ∧
      root.tree ≠ none ∧ List.Forall₂ Segment.SameRange root.tail root'.tail ∧
      Alike (log.Answered b.objects) (log.Answered b'.objects) Segment.SameRange
        root.tree.toList root'.tree.toList := by
  obtain ⟨hagree, -, -, hcomplete⟩ := @index_builders_agree Unit log topic_valid
  have hstart : Built (.initial (fun _ => none) ∅) Root.empty [] 0 0 :=
    ⟨fun _ _ _ _ => rfl, stands_empty rfl rfl le_rfl, .empty rfl rfl, le_rfl, fun _ _ _ _ _ => id⟩
  -- 65 batches fill one leaf and leave one in the tail
  obtain ⟨b₁, root₁, segments, hof, h₁⟩ := hstart.append (n := 65)
    (hcomplete () _ fits.toIndexPagesFit hstart.free) (by decide) (by decide) (by decide) (by decide)
  rw [List.nil_append] at h₁
  have hlength : segments.length = 65 := hof.length_eq.trans (length_batchesFrom 65 0)
  obtain ⟨b₂, root₂, h₂⟩ := h₁.rebuild (hcomplete () _ fits.toIndexPagesFit h₁.free) hlength
    (by decide) (by decide)
  -- one more batch on either root
  obtain ⟨b, root, added, hadded, h⟩ := h₁.append (n := 1)
    (hcomplete () _ fits.toIndexPagesFit h₁.free) (by decide) (by omega) (by decide) (by decide)
  obtain ⟨b', root', added', hadded', h'⟩ := h₂.append (n := 1)
    (hcomplete () _ fits.toIndexPagesFit h₂.free) (by decide) (by omega) (by decide) (by decide)
  obtain ⟨s, hs, rfl⟩ : ∃ s, Segment.IsOf s ([plainRecord], 65) ∧ added = [s] := by
    cases hadded with
    | cons hs hrest => cases hrest; exact ⟨_, hs, rfl⟩
  obtain ⟨s', hs', rfl⟩ : ∃ s, Segment.IsOf s ([plainRecord], 65) ∧ added' = [s] := by
    cases hadded' with
    | cons hs hrest => cases hrest; exact ⟨_, hs, rfl⟩
  -- the two last segments have the same range
  have hsame : List.Forall₂ Segment.SameRange (segments ++ [s]) (segments ++ [s']) :=
    List.rel_append (List.forall₂_same.mpr fun _ _ => ⟨rfl, rfl⟩)
      (.cons ⟨hs.1.trans hs'.1.symm, hs.2.trans hs'.2.symm⟩ .nil)
  -- a tail of 66 segments would be too long
  have htree : root.tree ≠ none := by
    obtain ⟨_, hindexed⟩ := h.stands
    have hcount := hindexed.tail_tiles.2
    have htail := hindexed.tail_le
    intro hnone
    simp only [Root.treeCount, hnone, List.length_append, hlength, List.length_singleton,
      Option.elim_none, pageEntries] at hcount htail
    omega
  obtain ⟨htails, htrees⟩ := (hagree b b' root root' _ _ h.builds h'.builds).2.2 Segment.SameRange
    (fun _ _ => id) hsame
  exact ⟨b, b', root, root', segments, s, s', hlength, h.builds, h'.builds, htree, htails, htrees⟩

end Reference

end Walstream.Log

import Walstream.Log.IndexRoot

/-!
# Rebuilding the index

Retention writes the index of the retained segments anew, level by level: full leaves, then
branches over 64 pages each, up to a level of one page. All pages of a level but the last
are full, which is what `Root::validate` and `read_page` require and what bounds the height.
-/

namespace Walstream.Log

open Interaction Tiling

namespace PartitionLog

variable {self : PartitionLog} {F : LogError → Prop}

/-- The pages of one level over `ss`, on top of the pages `base`, all others written
since `n`. -/
structure Tier (log : PartitionLog) (n n' : Notes Body) (base : List String) (level : Nat)
    (pages : List PageRef) (os : List String) (ss : List Segment) (a b : Int) : Prop where
  row : log.Row level pages a b
  forest : log.Forest n'.content pages os ss
  nodup : os.Nodup
  objects : ∀ o ∈ os, o ∈ base ∨ n.content o = none ∧ log.Named o

namespace Tier

variable {n n₁ n' : Notes Body} {base : List String} {level : Nat} {pages : List PageRef}
  {os : List String} {ss : List Segment} {a b : Int}

theorem nil : self.Tier n n' base level [] [] [] a a where
  row := ⟨rfl, by simp, by simp, by simp, by simp⟩
  forest := .nil
  nodup := .nil
  objects := by simp

/-- One more page in front. -/
theorem cons {r : PageRef} {ros : List String} {rss : List Segment}
    (hr : self.Forest n'.content [r] ros rss) (hlevel : r.level = level)
    (h : self.Tier n n' base level pages os ss r.nextOffset b) (hfull : pages ≠ [] → r.full = true)
    (hnodup : (ros ++ os).Nodup) (hobjects : ∀ o ∈ ros, o ∈ base ∨ n.content o = none ∧ self.Named o) :
    self.Tier n n' base level (r :: pages) (ros ++ os) (rss ++ ss) r.firstOffset b := by
  have hvalid := hr.root_valid
  refine ⟨⟨⟨rfl, (validatePageRef_eq_ok.mp hvalid).2.2.2.1, h.row.tiles⟩, ?_, ?_, ?_, ?_⟩, ?_,
    hnodup, ?_⟩
  -- the row with the page in front
  · simpa [hvalid] using h.row.valid
  · simpa [hlevel] using h.row.level_eq
  · cases pages with
    | nil => simp
    | cons p ps =>
      rw [List.dropLast_cons_of_ne_nil (by simp)]
      intro c hc
      rcases List.mem_cons.mp hc with rfl | hc
      · exact hfull (by simp)
      · exact h.row.full c hc
  -- the new page is none of the others
  · rw [List.map_cons, List.nodup_cons]
    refine ⟨fun hmem => ?_, h.row.nodup⟩
    obtain ⟨p, hp, heq⟩ := List.mem_map.mp hmem
    have hpage := h.forest.roots_mem hp
    rw [heq] at hpage
    exact (List.nodup_append.mp hnodup).2.2 _ (hr.roots_mem (by simp)) _ hpage rfl
  · simpa using hr.append h.forest
  · intro o ho
    rcases List.mem_append.mp ho with ho | ho
    · exact hobjects o ho
    · exact h.objects o ho

/-- What was written since later notes was written since earlier ones. -/
theorem earlier {base' : List String} (hn : n.Grows n₁)
    (hbase : ∀ o ∈ base, o ∈ base' ∨ n.content o = none ∧ self.Named o)
    (h : self.Tier n₁ n' base level pages os ss a b) : self.Tier n n' base' level pages os ss a b where
  row := h.row
  forest := h.forest
  nodup := h.nodup
  objects := by
    intro o ho
    rcases h.objects o ho with hmem | ⟨hnone, hnamed⟩
    · exact hbase o hmem
    · exact .inr ⟨Grows.none hn hnone, hnamed⟩

end Tier

/-! ## Chunks -/

section Chunks

variable {α : Type} {items : List α}

theorem chunks_induction {P : List α → List (List α) → Prop} (hnil : P [] [])
    (hcons : ∀ items, items ≠ [] → P (items.drop pageEntries) (chunks (items.drop pageEntries)) →
      P items (items.take pageEntries :: chunks (items.drop pageEntries))) (items : List α) :
    P items (chunks items) := by
  induction items using chunks.induct with
  | case1 =>
    rw [chunks, if_pos rfl]
    exact hnil
  | case2 items hne ih =>
    rw [chunks, if_neg hne]
    exact hcons items hne ih

variable (items) in
theorem flatten_chunks : (chunks items).flatten = items :=
  chunks_induction (P := fun items parts => parts.flatten = items) rfl
    (fun items _ ih => by rw [List.flatten_cons, ih, List.take_append_drop]) items

theorem length_of_mem_chunks : ∀ part ∈ chunks items, part ≠ [] ∧ part.length ≤ pageEntries :=
  chunks_induction (P := fun _ parts => ∀ part ∈ parts, part ≠ [] ∧ part.length ≤ pageEntries)
    (by simp) (fun items hne ih part hpart => by
      rcases List.mem_cons.mp hpart with rfl | hpart
      · refine ⟨?_, by rw [List.length_take]; omega⟩
        simp [hne, pageEntries]
      · exact ih part hpart) items

/-- All chunks but the last are of full length. -/
theorem length_of_mem_dropLast_chunks :
    ∀ part ∈ (chunks items).dropLast, part.length = pageEntries :=
  chunks_induction (P := fun _ parts => ∀ part ∈ parts.dropLast, part.length = pageEntries)
    (by simp) (fun items hne ih => by
      cases hrest : chunks (items.drop pageEntries) with
      | nil => simp
      | cons part parts =>
        rw [hrest] at ih
        rw [List.dropLast_cons_of_ne_nil (by simp)]
        have hlong : pageEntries < items.length := by
          by_contra hshort
          have hnil : items.drop pageEntries = [] := List.drop_eq_nil_of_le (by omega)
          rw [hnil, chunks, if_pos rfl] at hrest
          cases hrest
        intro p hp
        rcases List.mem_cons.mp hp with rfl | hp
        · rw [List.length_take]; omega
        · exact ih p hp) items

theorem length_of_mem_chunks_of_dvd (h : pageEntries ∣ items.length) :
    ∀ part ∈ chunks items, part.length = pageEntries :=
  chunks_induction (P := fun items parts => pageEntries ∣ items.length →
      ∀ part ∈ parts, part.length = pageEntries) (by simp)
    (fun items hne ih h part hpart => by
      have hpos := List.length_pos_iff.mpr hne
      have hlong : pageEntries ≤ items.length := Nat.le_of_dvd hpos h
      rcases List.mem_cons.mp hpart with rfl | hpart
      · rw [List.length_take]; omega
      · refine ih ?_ part hpart
        rw [List.length_drop]
        exact Nat.dvd_sub h (Nat.dvd_refl _)) items h

theorem length_chunks {α : Type} (items : List α) :
    (chunks items).length = (items.length + pageEntries - 1) / pageEntries :=
  chunks_induction (P := fun items parts =>
      parts.length = (items.length + pageEntries - 1) / pageEntries) (by simp [pageEntries])
    (fun items hne ih => by
      have hpos := List.length_pos_iff.mpr hne
      rw [List.length_cons, ih, List.length_drop]
      simp only [pageEntries]
      omega) items

end Chunks

/-! ## Leaves -/

/-- Segments in full leaves. -/
theorem writeLeaves_drafts (htopic : validateTopic self.topic = .ok ())
    (hF : ¬ IndexPagesFit self → F (invalid "index page exceeds byte limit")) :
    ∀ {parts : List (List Segment)} {n : Notes Body} {a b : Int},
      (∀ part ∈ parts, part.length = pageEntries) → SegmentTiles parts.flatten a b →
      (∀ s ∈ parts.flatten, self.ValidSegment s) →
      (∀ s ∈ parts.flatten, ∃ id, s.object = self.segmentPath id) →
      (parts.flatten.map (·.object)).Nodup → 0 ≤ a →
      self.Drafts (self.writePages (parts.map .leaf)) n (fun refs n' =>
        ∃ os, self.Tier n n' [] 0 refs.1 os parts.flatten a b) F := by
  -- over the leaves, each of which continues the range of the one before
  intro parts
  induction parts with
  | nil =>
    intro n a b _ htiles _ _ _ _
    obtain rfl : a = b := htiles
    exact drafting_pure ⟨[], .nil⟩
  | cons part parts ih =>
    intro n a b hlen htiles hvalid hnamed hnodup ha
    simp only [List.flatten_cons, List.mem_append, List.map_append] at htiles hvalid hnamed hnodup ⊢
    obtain ⟨m, hpart, hrest⟩ := tiles_append.mp htiles
    rw [List.nodup_append] at hnodup
    -- the first leaf is written
    refine drafting_bind (writeLeaf_drafts htopic (hlen part (by simp)) hpart
      (fun s hs => hvalid s (.inl hs)) (fun s hs => hnamed s (.inl hs)) hnodup.1 ha hF
      fun r n₁ hr hwrote => And.intro hr hwrote) ?_
    rintro r n₁ hn₁ ⟨hr, hwrote⟩
    simp only [PageRef.bounds, Prod.mk.injEq] at hr
    obtain ⟨rfl, rfl, hcount, hlevel⟩ := hr
    -- the others are written after it
    refine drafting_bind (drafting_mono (ih (fun p hp => hlen p (by simp [hp])) hrest
      (fun s hs => hvalid s (.inr hs)) (fun s hs => hnamed s (.inr hs)) hnodup.2.1
      (ha.trans hpart.le)) (fun refs n₂ hn₂ hrefs => And.intro hn₂ hrefs) fun _ h => h) ?_
    rintro refs n₂ - ⟨hn₂, os, htier⟩
    have hleaf := (Forest.of_leaf hwrote.stored).grows hn₂
    refine drafting_pure ⟨[r.object] ++ os, Tier.cons hleaf hlevel (htier.earlier hn₁ (by simp)) ?_
      ?_ ?_⟩
    -- each leaf has 64 segments, and its page is a new one
    · rintro -
      rw [full_iff, hcount, hlevel]
      decide
    · refine List.nodup_cons.mpr ⟨fun hmem => ?_, htier.nodup⟩
      rcases htier.objects _ hmem with hmem | ⟨hnone, -⟩
      · simp at hmem
      · exact (Forest.of_leaf hwrote.stored).content_ne_none (by simp) hnone
    · intro o ho
      rw [List.mem_singleton.mp ho]
      exact .inr ⟨hwrote.fresh, hwrote.named⟩

/-! ## Branches -/

theorem Row.split {level : Nat} {xs ys : List PageRef} {a b : Int}
    (h : self.Row level (xs ++ ys) a b) : ∃ m, self.Row level xs a m ∧ self.Row level ys m b ∧
      (ys ≠ [] → ∀ c ∈ xs, c.full = true) := by
  obtain ⟨m, hxs, hys⟩ := tiles_append.mp h.tiles
  have hnodup := h.nodup
  rw [List.map_append, List.nodup_append] at hnodup
  have hfull : ys ≠ [] → ∀ c ∈ xs, c.full = true := fun hne c hc =>
    h.full c (by rw [List.dropLast_append_of_ne_nil hne]; exact List.mem_append_left _ hc)
  refine ⟨m, ⟨hxs, fun c hc => h.valid c (by simp [hc]), fun c hc => h.level_eq c (by simp [hc]), ?_,
    hnodup.1⟩, ⟨hys, fun c hc => h.valid c (by simp [hc]), fun c hc => h.level_eq c (by simp [hc]), ?_,
    hnodup.2.1⟩, hfull⟩
  · intro c hc
    by_cases hne : ys = []
    · subst hne
      exact h.full c (by simpa using hc)
    · exact hfull hne c (List.mem_of_mem_dropLast hc)
  · intro c hc
    by_cases hne : ys = []
    · subst hne; simp at hc
    · exact h.full c (by rw [List.dropLast_append_of_ne_nil hne]; exact List.mem_append_right _ hc)

/-- One level of branches over the pages of the level below. -/
theorem writeBranches_drafts_level (htopic : validateTopic self.topic = .ok ())
    (hF : ¬ IndexPagesFit self → F (invalid "index page exceeds byte limit"))
    {level : Nat} (hlevel : level < maxIndexLevel) {b : Int} (hb : b ≤ i64Max) :
    ∀ {parts : List (List PageRef)} {n : Notes Body} {os : List String}
      {ss : List Segment} {a : Int}, (∀ part ∈ parts, part ≠ [] ∧ part.length ≤ pageEntries) →
      (∀ part ∈ parts.dropLast, part.length = pageEntries) → self.Row level parts.flatten a b →
      self.Forest n.content parts.flatten os ss → os.Nodup →
      self.Drafts (self.writePages (parts.map .branch)) n (fun refs n' =>
        ∃ os', self.Tier n n' os (level + 1) refs.1 os' ss a b) F := by
  -- over the parts of the row that become branches
  intro parts
  induction parts with
  | nil =>
    intro n os ss a _ _ hrow hforest _
    cases hforest
    obtain rfl : a = b := hrow.tiles
    exact drafting_pure ⟨[], .nil⟩
  | cons part parts ih =>
    intro n os ss a hparts hlong hrow hforest hnodup
    rw [List.flatten_cons] at hrow hforest
    -- the row and its pages are divided at the same place
    obtain ⟨m, hrowPart, hrowRest, hfull⟩ := hrow.split
    obtain ⟨os₁, os₂, ss₁, ss₂, rfl, rfl, hforestPart, hforestRest⟩ := hforest.split
    obtain ⟨hnodup₁, hnodup₂, hapart⟩ := List.nodup_append.mp hnodup
    obtain ⟨hne, hlen⟩ := hparts part (by simp)
    have hm : m ≤ i64Max := hrowRest.tiles.le.trans hb
    -- the first branch is written
    refine drafting_bind (writeBranch_drafts htopic hrowPart hne hlen hlevel hm hF
      fun r n₁ hr hwrote => And.intro hr hwrote) ?_
    rintro r n₁ hn₁ ⟨hr, hwrote⟩
    simp only [PageRef.bounds, Prod.mk.injEq] at hr
    obtain ⟨rfl, rfl, hcount, hrlevel⟩ := hr
    -- the others are written after it
    refine drafting_bind (drafting_mono (ih (fun p hp => hparts p (by simp [hp])) ?_ hrowRest
      (Forest.grows hforestRest hn₁) hnodup₂) (fun refs n₂ hn₂ hrefs => And.intro hn₂ hrefs)
      fun _ h => h) ?_
    · intro p hp
      refine hlong p ?_
      rw [List.dropLast_cons_of_ne_nil (by rintro rfl; simp at hp)]
      exact List.mem_cons_of_mem _ hp
    rintro ⟨refs, hrefs⟩ n₂ - ⟨hn₂, os', htier⟩
    simp only at htier
    have htree := Forest.of_branch hwrote.stored (hwrote.forest hforestPart)
    refine drafting_pure ⟨(r.object :: os₁) ++ os', Tier.cons (htree.grows hn₂) hrlevel
      (htier.earlier hn₁ fun o ho => .inl (List.mem_append_right _ ho)) ?_ ?_ ?_⟩
    · -- a branch with another one behind it has 64 full children
      intro hmore
      have hrest : parts ≠ [] := by
        rintro rfl
        exact hmore (List.length_eq_zero_iff.mp (by simpa using hrefs))
      have hrestFlat : parts.flatten ≠ [] := by
        obtain ⟨p, ps, rfl⟩ := List.exists_cons_of_ne_nil hrest
        simp [(hparts p (by simp)).1]
      have hlenPart : part.length = pageEntries :=
        hlong part (by rw [List.dropLast_cons_of_ne_nil hrest]; simp)
      have htotal := Row.count_of_full (hfull hrestFlat) hrowPart.level_eq
      rw [full_iff, hcount, hrlevel, htotal, hlenPart]
      rcases Nat.lt_or_ge (level + 1) maxIndexLevel with hlt | hge
      · rw [levelCapacity_succ hlt]
      · exfalso
        have hwidth := hrowPart.count_le_width
        have hstart := (validatePageRef_eq_ok.mp htree.root_valid).2.2.1
        obtain rfl : level = 9 := by
          have : maxIndexLevel = 10 := rfl
          omega
        have hhuge : (i64Max : Int) < ((pageEntries * levelCapacity 9 : Nat) : Int) := by decide
        rw [htotal, hlenPart] at hwidth
        omega
    · -- the pages below the new branch, the branch itself, and the rest of the level
      have hnew : r.object ∉ os₁ := fun hmem => Forest.content_ne_none hforestPart hmem hwrote.fresh
      refine List.nodup_append.mpr ⟨List.nodup_cons.mpr ⟨hnew, hnodup₁⟩, htier.nodup, ?_⟩
      rintro o ho o' ho' rfl
      rcases htier.objects o ho' with hmem | ⟨hnone, -⟩
      · rcases List.mem_cons.mp ho with rfl | ho
        · exact Forest.content_ne_none hforestRest hmem hwrote.fresh
        · exact hapart o ho o hmem rfl
      · exact htree.content_ne_none ho hnone
    -- a page of the level is a new branch, or one from below
    · intro o ho
      rcases List.mem_cons.mp ho with rfl | ho
      · exact .inr ⟨hwrote.fresh, hwrote.named⟩
      · exact .inl (List.mem_append_left _ ho)

/-- Levels of branches up to one page. -/
theorem writeBranches_drafts (htopic : validateTopic self.topic = .ok ())
    (hF : ¬ IndexPagesFit self → F (invalid "index page exceeds byte limit"))
    {b : Int} (hb : b ≤ i64Max) {n : Notes Body} {ss : List Segment} {a : Int} :
    ∀ {pages : List PageRef} {level : Nat} {n₁ : Notes Body} {os : List String},
      n.Grows n₁ → self.Tier n n₁ [] level pages os ss a b →
      self.Drafts (self.writeBranches pages) n₁ (fun pages' n' => pages'.length ≤ 1 ∧
        ∃ level' os', self.Tier n n' [] level' pages' os' ss a b) F := by
  intro pages
  induction hk : pages.length using Nat.strong_induction_on generalizing pages with
  | _ k ih =>
    intro level n₁ os hn htier
    rw [writeBranches]
    split
    · rename_i hmany
      have hflat := htier.row
      rw [← flatten_chunks pages] at hflat
      have hforest := htier.forest
      rw [← flatten_chunks pages] at hforest
      -- the first page is full, and the offsets bound what lies below it
      have hlevel : level < maxIndexLevel := by
        obtain ⟨p, q, rest, rfl⟩ : ∃ p q rest, pages = p :: q :: rest := by
          match pages, hmany with
          | p :: q :: rest, _ => exact ⟨p, q, rest, rfl⟩
        have hp := validatePageRef_eq_ok.mp (htier.row.valid p (by simp))
        have hfull := full_iff.mp (htier.row.full p (by simp))
        have hnext : p.nextOffset ≤ b := (htier.row.tiles.mem (x := p) (by simp)).2.2
        rw [htier.row.level_eq p (by simp)] at hfull
        by_contra hge
        rw [levelCapacity_of_ge (by omega)] at hfull
        have : (i64Max : Int) < (u64Max : Nat) := by decide
        omega
      refine drafting_bind (drafting_mono (writeBranches_drafts_level htopic hF hlevel hb
        length_of_mem_chunks length_of_mem_dropLast_chunks hflat hforest htier.nodup)
        (fun refs n₂ hn₂ hrefs => And.intro hn₂ hrefs) fun _ h => h) ?_
      rintro ⟨parents, hparents⟩ n₂ - ⟨hn₂, os', htier'⟩
      refine ih parents.length ?_ rfl (hn.trans hn₂) (htier'.earlier hn fun o ho => ?_)
      · rw [hparents, List.length_map, ← hk]
        exact length_chunks_lt hmany
      · exact (htier.objects o ho).imp_left fun hmem => by simp at hmem
    · rename_i hfew
      exact drafting_pure ⟨by omega, level, os, htier⟩

/-! ## The whole index -/

/-- Counting the pages in advance only fails for want of budget. -/
theorem countPages_eq_error {levelCount count maximum : Nat} {x : LogError}
    (h : countPages levelCount count maximum = .error x) : x = .maintenanceBudget maximum := by
  induction levelCount, count using countPages.induct with
  | case1 count =>
    rw [countPages, if_pos rfl] at h
    cases h
  | case2 levelCount count hne ih =>
    rw [countPages, if_neg hne, bind_eq_error] at h
    rcases h with h | ⟨count', -, h⟩
    · exact (okOr_eq_error.mp h).2.symm
    · split at h
      · cases h
      · rename_i hone
        exact ih count' hone h

theorem rebuildIndex_drafts (htopic : validateTopic self.topic = .ok ())
    (hF : ¬ IndexPagesFit self → F (invalid "index page exceeds byte limit"))
    {n : Notes Body} {segments : List Segment} {start next : Int} {maximum : Nat}
    (hbudget : (∀ total ≤ maximum,
      countPages ((segments.length - 1) / pageEntries * pageEntries / pageEntries) segments.length
        maximum ≠ .ok total) → F (.maintenanceBudget maximum))
    (htiles : SegmentTiles segments start next)
    (hvalid : ∀ s ∈ segments, self.ValidSegment s) (hstored : self.Stored n.content segments)
    (hnodup : (segments.map (·.object)).Nodup) (hstart : 0 ≤ start) (hnext : next ≤ i64Max) :
    self.Drafts (self.rebuildIndex segments start next maximum) n (fun root n' =>
      self.Carries n n' [] root segments next ∧ Root.Compact root ∧
        root = { Root.empty with
          startOffset := start
          nextOffset := next
          tree := root.tree
          tail := root.tail }) F := by
  unfold rebuildIndex
  -- the plan is within the budget, or refused before anything is written
  refine drafts_check_bind (fun count hcount => ?_) fun x hx => ?_
  · dsimp only
    split
    · rename_i hmany
      refine drafting_throw (hbudget fun total hle htotal => ?_)
      obtain rfl : count = total := Except.ok.inj (hcount.symm.trans htotal)
      omega
    -- all full leaves, and what remains of them for the tail
    · generalize hsealed : (segments.length - 1) / pageEntries * pageEntries = sealedCount
      have hsplit := List.take_append_drop sealedCount segments
      have hle : sealedCount ≤ segments.length := by
        rw [← hsealed]
        exact (Nat.div_mul_le_self _ _).trans (Nat.sub_le _ _)
      have htake : (segments.take sealedCount).length = sealedCount := by
        rw [List.length_take]; omega
      have hdrop : (segments.drop sealedCount).length ≤ pageEntries ∧
          ((segments.drop sealedCount).length = 0 → segments.length = 0) := by
        rw [List.length_drop, ← hsealed]
        simp only [pageEntries]
        omega
      obtain ⟨m, htilesTake, -⟩ := tiles_append.mp (hsplit.symm ▸ htiles)
      have hparts := flatten_chunks (segments.take sealedCount)
      -- the leaves of the sealed part
      refine drafting_bind (drafting_mono (writeLeaves_drafts htopic hF (a := start) (b := m)
        (length_of_mem_chunks_of_dvd (by rw [htake, ← hsealed]; exact Nat.dvd_mul_left _ _))
        (by rwa [hparts]) ?_ ?_ ?_ hstart) (fun refs n₁ hn₁ hrefs => And.intro hn₁ hrefs)
        fun _ h => h) ?_
      · rw [hparts]
        exact fun s hs => hvalid s (List.mem_of_mem_take hs)
      · rw [hparts]
        intro s hs
        obtain ⟨_, hbytes⟩ := hstored s (List.mem_of_mem_take hs)
        exact hbytes.named
      · rw [hparts]
        exact hnodup.sublist ((List.take_sublist _ _).map _)
      rintro ⟨leaves, hleaves⟩ n₁ - ⟨hn₁, los, hleafTier⟩
      rw [hparts] at hleafTier
      have hm : m ≤ i64Max := by
        obtain ⟨m', h₁, h₂⟩ := tiles_append.mp (hsplit.symm ▸ htiles)
        exact (h₁.end_unique htilesTake) ▸ h₂.le.trans hnext
      -- the branches above them, until one page is left
      refine drafting_bind (drafting_mono (writeBranches_drafts htopic hF hm hn₁ hleafTier)
        (fun pages n₂ hn₂ hpages => And.intro hn₂ hpages) fun _ h => h) ?_
      rintro pages n₂ - ⟨hn₂, hfew, level, os, htier⟩
      have hshape : pages = [] ∨ ∃ r, pages = [r] := by
        rw [← List.length_eq_zero_iff, ← List.length_eq_one_iff]
        omega
      have hgrows := hn₁.trans hn₂
      have hforest : self.Forest n₂.content pages.getLast?.toList os (segments.take sealedCount) := by
        rcases hshape with rfl | ⟨r, rfl⟩
        · exact htier.forest
        · exact htier.forest
      -- what the new root stands for
      refine drafting_pure ⟨⟨os, ⟨⟨segments.take sealedCount, hforest, hsplit.symm⟩, ?_, htiles,
        hvalid, hstored.grows hgrows, ?_, hstart, hdrop.1⟩, htier.objects⟩, ?_, rfl⟩
      · rcases hshape with rfl | ⟨r, rfl⟩
        · simp
        · have := htier.row.tiles.head
          simpa using this
      -- the pages are new, so that no segment has one of their names
      · refine List.nodup_append.mpr ⟨htier.nodup, hnodup, ?_⟩
        rintro o ho o' ho' rfl
        rcases htier.objects o ho with hmem | ⟨hnone, -⟩
        · simp at hmem
        · exact hstored.ne_none ho' hnone
      · -- without a tail there was nothing to seal
        intro htail
        have hnil : segments = [] := List.length_eq_zero_iff.mp (hdrop.2 (by
          simpa using congrArg List.length htail))
        rcases hshape with rfl | ⟨r, rfl⟩
        · rfl
        · have htilesNil := htier.forest.tiles htier.row.tiles
          rw [hnil] at htilesNil
          have hpos := htier.row.tiles
          have hempty : start = m := by simpa using htilesNil
          obtain ⟨hfirst, hlt, hend⟩ := hpos
          have hend' : r.nextOffset = m := hend
          omega
  -- the number of pages cannot be counted
  · exact countPages_eq_error hx ▸ hbudget fun total _ htotal => by simp [hx] at htotal

end PartitionLog

end Walstream.Log

import Walstream.Log.IndexTree

/-!
# Growing the index

Sealing a tail adds one full leaf at the right of the tree and copies the path to it. The
specifications say what the new tree holds and which objects it consists of: old ones and
fresh ones.
-/

namespace Walstream.Log

open Interaction Tiling

namespace PartitionLog

variable {self : PartitionLog} {n : Notes Body} {F : LogError → Prop}

/-! ## Capacities -/

theorem levelCapacity_of_lt {level : Nat} (h : level < maxIndexLevel) :
    levelCapacity level = pageEntries ^ (level + 1) := by
  have hle : pageEntries ^ (level + 1) ≤ u64Max := by
    have : pageEntries ^ (level + 1) ≤ pageEntries ^ maxIndexLevel :=
      Nat.pow_le_pow_right (by decide) (by omega)
    exact this.trans (by decide)
  simp [levelCapacity, checkedPowU64, hle]

theorem levelCapacity_of_ge {level : Nat} (h : maxIndexLevel ≤ level) :
    levelCapacity level = u64Max := by
  have hlarge : ¬ pageEntries ^ (level + 1) ≤ u64Max := by
    have hpow : pageEntries ^ (maxIndexLevel + 1) ≤ pageEntries ^ (level + 1) :=
      Nat.pow_le_pow_right (by decide) (by omega)
    exact fun hle => absurd (hpow.trans hle) (by decide)
  simp [levelCapacity, checkedPowU64, hlarge]

/-- A page is full when all its children are, below the top level. -/
theorem levelCapacity_succ {level : Nat} (h : level + 1 < maxIndexLevel) :
    levelCapacity (level + 1) = pageEntries * levelCapacity level := by
  rw [levelCapacity_of_lt h, levelCapacity_of_lt (by omega), pow_succ, Nat.mul_comm]

theorem full_iff {r : PageRef} : r.full = true ↔ r.segmentCount = levelCapacity r.level := by
  simp [PageRef.full, capacity_eq]

namespace Row

variable {level : Nat} {children cs : List PageRef} {c : PageRef} {a b d : Int}

theorem count_le_width (h : self.Row level children a b) :
    (countBelow children : Int) ≤ b - a := by
  have htiles := h.tiles
  have hvalid := h.valid
  clear h
  induction children generalizing a with
  | nil => simp_all
  | cons c cs ih =>
    obtain ⟨hfirst, -, hrest⟩ := htiles
    have hwidth := (validatePageRef_eq_ok.mp (hvalid c (by simp))).2.2.2.2.2.1
    have := ih hrest fun c hc => hvalid c (by simp [hc])
    push_cast [countBelow_cons]
    omega

theorem count_le_capacity (h : self.Row level children a b) :
    countBelow children ≤ children.length * levelCapacity level := by
  have hvalid := h.valid
  have hlevel := h.level_eq
  clear h
  induction children with
  | nil => simp
  | cons c cs ih =>
    have hc := (validatePageRef_eq_ok.mp (hvalid c (by simp))).2.2.2.2.2.2.1
    rw [capacity_eq, hlevel c (by simp)] at hc
    have := ih (fun c hc => hvalid c (by simp [hc])) fun c hc => hlevel c (by simp [hc])
    rw [countBelow_cons, List.length_cons, Nat.succ_mul]
    omega

/-- The count of a row in which every page is full. -/
theorem count_of_full (h : ∀ c ∈ children, c.full = true) (hlevel : ∀ c ∈ children, c.level = level) :
    countBelow children = children.length * levelCapacity level := by
  induction children with
  | nil => simp
  | cons c cs ih =>
    have hc := full_iff.mp (h c (by simp))
    rw [hlevel c (by simp)] at hc
    rw [countBelow_cons, List.length_cons, Nat.succ_mul, hc,
      ih (fun c hc => h c (by simp [hc])) fun c hc => hlevel c (by simp [hc])]
    omega

theorem singleton (hvalid : self.validatePageRef c = .ok ()) :
    self.Row c.level [c] c.firstOffset c.nextOffset where
  tiles := ⟨rfl, (validatePageRef_eq_ok.mp hvalid).2.2.2.1, rfl⟩
  valid := by simpa using hvalid
  level_eq := by simp
  full := by simp
  nodup := by simp

/-- A row of full pages, continued by one more page. -/
theorem snoc (h : self.Row level children a b) (hfull : ∀ e ∈ children, e.full = true)
    (hc : self.validatePageRef c = .ok ()) (hlevel : c.level = level) (hfirst : c.firstOffset = b)
    (hnew : c.object ∉ children.map (·.object)) :
    self.Row level (children ++ [c]) a c.nextOffset where
  tiles := h.tiles.append ⟨hfirst, hfirst ▸ (validatePageRef_eq_ok.mp hc).2.2.2.1, rfl⟩
  valid := by
    intro e he
    rcases List.mem_append.mp he with he | he
    · exact h.valid e he
    · rw [List.mem_singleton.mp he]; exact hc
  level_eq := by
    intro e he
    rcases List.mem_append.mp he with he | he
    · exact h.level_eq e he
    · rw [List.mem_singleton.mp he]; exact hlevel
  full := by simpa using hfull
  nodup := by
    rw [List.map_append, List.nodup_append]
    refine ⟨h.nodup, by simp, ?_⟩
    rintro o ho o' ho' rfl
    simp only [List.map_cons, List.map_nil, List.mem_singleton] at ho'
    exact hnew (ho' ▸ ho)

theorem dropLast_of_snoc (h : self.Row level (children ++ [c]) a b) :
    self.Row level children a c.firstOffset where
  tiles := by
    obtain ⟨d, hd, hfirst, -⟩ := tiles_append.mp h.tiles
    rwa [hfirst]
  valid := fun e he => h.valid e (by simp [he])
  level_eq := fun e he => h.level_eq e (by simp [he])
  full := fun e he => h.full e (by simpa using List.mem_of_mem_dropLast he)
  nodup := by
    have := h.nodup
    rw [List.map_append, List.nodup_append] at this
    exact this.1

theorem full_of_snoc (h : self.Row level (children ++ [c]) a b) :
    ∀ e ∈ children, e.full = true := fun e he => h.full e (by simpa using he)

end Row

/-! ## Writing one page -/

/-- The notes after one object was created under a fresh name. -/
structure Created (log : PartitionLog) (n n' : Notes Body) (object : String) (body : Body) :
    Prop where
  content : n'.content = Function.update n.content object (some body)
  fresh : n.content object = none
  own : object ∈ n'.own
  named : log.Named object

theorem Created.mono {n' : Notes Body} {object : String} {body : Body}
    (h : self.Created n n' object body) {o : String} (ho : n.content o ≠ none) :
    n'.content o = n.content o := by
  have hne : o ≠ object := fun heq => ho (heq ▸ h.fresh)
  simp [h.content, hne]

/-- What writing a page leaves behind. -/
structure Wrote (log : PartitionLog) (n n' : Notes Body) (r : PageRef) (page : Page) : Prop
    extends log.Created n n' r.object (.page page) where
  stored : log.StoredPage n'.content r page

theorem writePage_drafts (htopic : validateTopic self.topic = .ok ()) {page : Page} {a b : Int}
    {count level : Nat} {Q : PageRef → Notes Body → Prop}
    (hbounds : self.newPageBounds page = .ok (a, b, count, level))
    (hcheck : ∀ r : PageRef, r.bounds = (a, b, count, level) → self.checkPage r page = .ok ())
    (hlevel : level ≤ maxIndexLevel) (ha : 0 ≤ a) (hab : a < b) (hcount : 0 < count)
    (hwidth : (count : Int) ≤ b - a) (hcapacity : count ≤ levelCapacity level)
    (hF : self.crates.size (.page page) > maxManifestBytes →
      F (invalid "index page exceeds byte limit"))
    (hQ : ∀ r n', r.bounds = (a, b, count, level) → self.Wrote n n' r page → Q r n') :
    self.Drafts (self.writePage page) n Q F := by
  unfold writePage
  refine drafts_check_bind_ok hbounds ?_
  dsimp only
  -- the page may be too large to be written
  split
  · rename_i hlarge
    exact drafting_throw (hF hlarge)
  -- the reference describes the page that is written
  · rename_i hsmall
    refine drafts_newV4 fun id hid => ?_
    have hvalid : self.validatePageRef ⟨self.indexPath id, a, b, count, level,
        self.crates.size (.page page), self.crates.sha256Hex (.page page)⟩ = .ok () :=
      validatePageRef_eq_ok.mpr ⟨self.crates.namesUuid_self _ _ id, hlevel, ha, hab, hcount, hwidth,
        hcapacity, self.crates.jsonLength_pos _, by simpa using hsmall,
        self.crates.sha256Hex_valid _⟩
    refine drafts_check_bind_ok hvalid (drafts_create (.inr (self.indexPath_mem id))
      (hid _ (self.indexPath_mem id)) (drafting_pure (hQ _ _ rfl ⟨⟨rfl,
        hid _ (self.indexPath_mem id), .inr (self.indexPath_mem id),
        ⟨id, self.indexPath_mem id⟩⟩, ⟨?_, rfl, rfl, hvalid, hcheck _ rfl,
        self.pathFrom_named htopic ⟨id, self.indexPath_mem id⟩⟩⟩)))
    simp

/-- A forest survives the creation of a page. -/
theorem Wrote.forest {n' : Notes Body} {r : PageRef} {page : Page} (h : self.Wrote n n' r page)
    {pages : List PageRef} {os : List String} {ss : List Segment}
    (hf : self.Forest n.content pages os ss) : self.Forest n'.content pages os ss :=
  hf.mono fun o ho => h.toCreated.mono <| by
    obtain ⟨r', page', rfl, hstored⟩ := hf.mem_objects ho
    simp [hstored.body]

/-- Full leaves can be written. -/
theorem writeLeaf_drafts (htopic : validateTopic self.topic = .ok ()) {segments : List Segment}
    {a b : Int} {Q : PageRef → Notes Body → Prop} (hlen : segments.length = pageEntries)
    (htiles : SegmentTiles segments a b) (hvalid : ∀ s ∈ segments, self.ValidSegment s)
    (hnamed : ∀ s ∈ segments, ∃ id, s.object = self.segmentPath id)
    (hnodup : (segments.map (·.object)).Nodup) (ha : 0 ≤ a)
    (hF : ¬ IndexPagesFit self → F (invalid "index page exceeds byte limit"))
    (hQ : ∀ r n', r.bounds = (a, b, pageEntries, 0) →
      self.Wrote n n' r (.leaf segments) → Q r n') :
    self.Drafts (self.writePage (.leaf segments)) n Q F := by
  -- 64 segments span a range that is not empty
  have hwidth := htiles.length_le
  rw [hlen] at hwidth
  have hab : a < b := by
    have : (0 : Int) < (pageEntries : Nat) := by decide
    omega
  -- the bounds are those of the page, and the page passes its check under them
  refine writePage_drafts htopic (a := a) (b := b) ?_ ?_
    (Nat.zero_le _) ha hab (by decide) hwidth (by decide) (fun hlarge => hF ?_) hQ
  · obtain ⟨s, rest, rfl⟩ : ∃ s rest, segments = s :: rest :=
      List.exists_cons_of_ne_nil (by rintro rfl; simp [pageEntries] at hlen)
    have hfirst : s.baseOffset = a := htiles.1
    simp only [newPageBounds, bind_eq_ok]
    refine ⟨b, validateSegments_eq_ok.mpr ⟨by rw [hfirst]; exact htiles, hvalid, hnodup⟩, ?_⟩
    simp only [hfirst, hlen]
    rfl
  · rintro r hr
    simp only [PageRef.bounds, Prod.mk.injEq] at hr
    obtain ⟨rfl, rfl, hcount, hlevel⟩ := hr
    exact checkPage_leaf.mpr ⟨hlen, hcount, hlevel, htiles, hvalid, hnodup⟩
  -- a page that is too large does not fit
  · exact fun fits => absurd
      (fits.leaf segments hlen.le fun s hs => ⟨hvalid s hs, hnamed s hs⟩) (not_le.mpr hlarge)

/-- Rows of at most 64 pages can be written as a branch. -/
theorem writeBranch_drafts (htopic : validateTopic self.topic = .ok ()) {children : List PageRef}
    {a b : Int} {level : Nat} {Q : PageRef → Notes Body → Prop}
    (hrow : self.Row level children a b) (hne : children ≠ [])
    (hlen : children.length ≤ pageEntries) (hlevel : level < maxIndexLevel) (hb : b ≤ i64Max)
    (hF : ¬ IndexPagesFit self → F (invalid "index page exceeds byte limit"))
    (hQ : ∀ r n', r.bounds = (a, b, countBelow children, level + 1) →
      self.Wrote n n' r (.branch children) → Q r n') :
    self.Drafts (self.writePage (.branch children)) n Q F := by
  -- there is a child, and its range is valid
  obtain ⟨c, cs, rfl⟩ := List.exists_cons_of_ne_nil hne
  have hc := validatePageRef_eq_ok.mp (hrow.valid c (by simp))
  have ha : 0 ≤ a := hrow.tiles.head ▸ hc.2.2.1
  have hpos : 0 < countBelow (c :: cs) := by
    have := hc.2.2.2.2.1
    rw [countBelow_cons]
    omega
  have hwidth := hrow.count_le_width
  -- the count is bounded by the range, and by what a page of this level may hold
  have hmax : countBelow (c :: cs) ≤ u64Max := by
    have : (countBelow (c :: cs) : Int) ≤ i64Max := by omega
    unfold i64Max at this
    unfold u64Max
    omega
  have hcapacity : countBelow (c :: cs) ≤ levelCapacity (level + 1) := by
    rcases Nat.lt_or_ge (level + 1) maxIndexLevel with hlt | hge
    · rw [levelCapacity_succ hlt]
      exact hrow.count_le_capacity.trans (Nat.mul_le_mul_right _ hlen)
    · rw [levelCapacity_of_ge hge]
      exact hmax
  -- as for a leaf: the bounds, the check, and the size
  refine writePage_drafts htopic ?_ ?_ hlevel ha (by omega) hpos hwidth
    hcapacity (fun hlarge => hF ?_) hQ
  · exact validateChildren_eq_ok.mpr ⟨hne, hlen, rfl, hmax, Nat.succ_pos _, hlevel, hrow⟩
  · intro r hr
    simp only [PageRef.bounds, Prod.mk.injEq] at hr
    obtain ⟨rfl, rfl, hcount, hl⟩ := hr
    refine checkPage_branch_eq_ok.mpr ⟨hne, hlen, hcount.symm, by omega, by omega, by omega, ?_⟩
    rw [hl]
    exact hrow
  · exact fun fits => absurd (fits.branch _ hlen hrow.valid) (not_le.mpr hlarge)

/-! ## What is below a reference -/

/-- The reference `p` is met on a way down from `r`. -/
inductive Below (content : String → Option Body) : PageRef → PageRef → Prop where
  | refl (r : PageRef) : Below content r r
  | child {r c p : PageRef} {children : List PageRef}
      (hpage : content r.object = some (.page (.branch children))) (hc : c ∈ children)
      (h : Below content c p) : Below content r p

/-- The reference `p` is met on the way down from `r` by last children. -/
inductive RightEdge (content : String → Option Body) : PageRef → PageRef → Prop where
  | refl (r : PageRef) : RightEdge content r r
  | last {r c p : PageRef} {children : List PageRef}
      (hpage : content r.object = some (.page (.branch (children ++ [c]))))
      (h : RightEdge content c p) : RightEdge content r p

/-- What is below `r` in the old store, outside its right edge, is below `r'` in the new one. -/
def Keeps (content content' : String → Option Body) (r r' : PageRef) : Prop :=
  ∀ p, Below content r p → RightEdge content r p ∨ Below content' r' p

theorem Below.grows {n' : Notes Body} {r p : PageRef} (h : Below n.content r p) (hn : n.Grows n') :
    Below n'.content r p := by
  induction h with
  | refl r => exact .refl r
  | child hpage hc _ ih => exact .child (hn.content _ _ hpage) hc ih

/-- A new branch over the old tree keeps all of it. -/
theorem Keeps.of_mem {n' : Notes Body} {r r' : PageRef} {children : List PageRef} (hn : n.Grows n')
    (hpage : n'.content r'.object = some (.page (.branch children))) (hr : r ∈ children) :
    Keeps n.content n'.content r r' := fun _ hp => .inr (.child hpage hr (hp.grows hn))

/-- A new branch that takes over the children of the old one, and in place of the last one
others that keep it, keeps the old tree. -/
theorem Keeps.branch {n' : Notes Body} {r r' c : PageRef} {init rest : List PageRef}
    (hn : n.Grows n') (hpage : n.content r.object = some (.page (.branch (init ++ [c]))))
    (hpage' : n'.content r'.object = some (.page (.branch (init ++ rest))))
    (hlast : ∀ p, Below n.content c p → RightEdge n.content c p ∨
      ∃ d ∈ rest, Below n'.content d p) :
    Keeps n.content n'.content r r' := by
  intro p hp
  cases hp with
  | refl => exact .inl (.refl r)
  | child hold hd hbelow =>
    obtain rfl : _ = init ++ [c] := by simpa using hold.symm.trans hpage
    rcases List.mem_append.mp hd with hd | hd
    · exact .inr (.child hpage' (by simp [hd]) (hbelow.grows hn))
    · obtain rfl := List.mem_singleton.mp hd
      rcases hlast p hbelow with hedge | ⟨d, hd, hbelow⟩
      · exact .inl (.last hpage hedge)
      · exact .inr (.child hpage' (by simp [hd]) hbelow)

/-! ## Trees -/

/-- A tree in the notes `n'`, built of the objects `os` and objects made since `n`. -/
structure Planted (log : PartitionLog) (n n' : Notes Body) (os : List String) (r : PageRef)
    (os' : List String) (ss : List Segment) : Prop where
  forest : log.Forest n'.content [r] os' ss
  nodup : os'.Nodup
  objects : ∀ o ∈ os', o ∈ os ∨ n.content o = none ∧ log.Named o

theorem Forest.content_ne_none {content : String → Option Body} {pages : List PageRef}
    {os : List String} {ss : List Segment} (h : self.Forest content pages os ss) {o : String}
    (ho : o ∈ os) : content o ≠ none := by
  obtain ⟨r, page, rfl, hstored⟩ := h.mem_objects ho
  simp [hstored.body]

theorem Forest.grows {n' : Notes Body} {pages : List PageRef} {os : List String}
    {ss : List Segment} (h : self.Forest n.content pages os ss) (hn : n.Grows n') :
    self.Forest n'.content pages os ss := by
  refine h.mono fun o ho => ?_
  obtain ⟨body, hbody⟩ := Option.ne_none_iff_exists'.mp (h.content_ne_none ho)
  rw [hbody, hn.content o body hbody]

theorem Forest.root {content : String → Option Body} {r : PageRef} {os : List String}
    {ss : List Segment} (h : self.Forest content [r] os ss) :
    ∃ page, self.StoredPage content r page := by
  cases h with
  | leaf page _ => exact ⟨_, page⟩
  | branch page _ => exact ⟨_, page⟩

theorem Forest.root_valid {content : String → Option Body} {r : PageRef} {os : List String}
    {ss : List Segment} (h : self.Forest content [r] os ss) : self.validatePageRef r = .ok () :=
  h.root.choose_spec.reference

theorem Forest.of_leaf {content : String → Option Body} {r : PageRef} {segments : List Segment}
    (h : self.StoredPage content r (.leaf segments)) :
    self.Forest content [r] [r.object] segments := by
  simpa using Walk.leaf h .nil

theorem Forest.of_branch {content : String → Option Body} {r : PageRef}
    {children : List PageRef} {os : List String} {ss : List Segment}
    (h : self.StoredPage content r (.branch children))
    (hf : self.Forest content children os ss) :
    self.Forest content [r] (r.object :: os) ss :=
  Walk.branch h (by simpa using hf)

theorem Grows.none {n n' : Notes Body} (h : n.Grows n') {o : String} (ho : n'.content o = none) :
    n.content o = none := by
  by_contra hne
  obtain ⟨body, hbody⟩ := Option.ne_none_iff_exists'.mp hne
  exact absurd (h.content _ _ hbody) (by simp [ho])

/-- A branch over a row of trees is a tree. -/
theorem Planted.branch {n n₁ n' : Notes Body} {base cos : List String} {r : PageRef}
    {children : List PageRef} {ss : List Segment} (hn : n.Grows n₁)
    (hf : self.Forest n₁.content children cos ss) (hnodup : cos.Nodup)
    (hobjects : ∀ o ∈ cos, o ∈ base ∨ n.content o = none ∧ self.Named o)
    (hwrote : self.Wrote n₁ n' r (.branch children)) :
    self.Planted n n' base r (r.object :: cos) ss where
  forest := Forest.of_branch hwrote.stored (hwrote.forest hf)
  nodup := List.nodup_cons.mpr ⟨fun ho => hf.content_ne_none ho hwrote.fresh, hnodup⟩
  objects := by
    intro o ho
    rcases List.mem_cons.mp ho with rfl | ho
    · exact .inr ⟨Grows.none hn hwrote.fresh, hwrote.named⟩
    · exact hobjects o ho

/-- A chain of branches with one child each, from a page up to a level. -/
theorem indexPathLoop_drafts (htopic : validateTopic self.topic = .ok ())
    (hF : ¬ IndexPagesFit self → F (invalid "index page exceeds byte limit"))
    {level : Nat} (hlevel : level ≤ maxIndexLevel) :
    ∀ (missing : Nat) {n : Notes Body} {r : PageRef} {os : List String} {ss : List Segment},
      self.Forest n.content [r] os ss → os.Nodup → r.level + missing = level →
      r.nextOffset ≤ i64Max →
      self.Drafts (self.indexPathLoop level missing r) n (fun r' n' => ∃ os',
        self.Planted n n' os r' os' ss ∧
          r'.bounds = (r.firstOffset, r.nextOffset, r.segmentCount, level)) F := by
  intro missing
  -- on the number of levels that are missing above the page
  induction missing with
  | zero =>
    intro n r os ss h hnodup hmissing _
    refine drafting_pure ⟨os, ⟨h, hnodup, fun o ho => .inl ho⟩, ?_⟩
    simp only [PageRef.bounds, Prod.mk.injEq, true_and]
    omega
  -- one branch over the page, and the rest of the chain over the branch
  | succ missing ih =>
    intro n r os ss h hnodup hmissing hmax
    rw [indexPathLoop, if_pos (by omega)]
    refine drafting_bind (writeBranch_drafts htopic (Row.singleton h.root_valid) (by simp)
      (by simp [pageEntries]) (by omega) hmax hF fun r' n' hr' hwrote => And.intro hr' hwrote) ?_
    rintro r' n' - ⟨hr', hwrote⟩
    simp only [PageRef.bounds, countBelow_cons, countBelow_nil, add_zero, Prod.mk.injEq] at hr'
    obtain ⟨hfirst, hnext, hcount, hlevel'⟩ := hr'
    have hplanted := Planted.branch (.refl n) h hnodup (fun o ho => .inl ho) hwrote
    refine drafting_mono (ih hplanted.forest hplanted.nodup (by omega) (by omega)) ?_ fun _ => id
    rintro r'' n'' - ⟨os', hplanted', hbounds⟩
    refine ⟨os', ⟨hplanted'.forest, hplanted'.nodup, fun o ho => ?_⟩, ?_⟩
    -- what is under the branch was there, or is new
    · rcases hplanted'.objects o ho with hmem | ⟨hnone, hnamed⟩
      · exact hplanted.objects o hmem
      · refine .inr ⟨?_, hnamed⟩
        by_contra hne
        exact hne (hwrote.toCreated.mono hne ▸ hnone)
    · rw [hbounds, hfirst, hnext, hcount]

theorem indexPathTo_drafts (htopic : validateTopic self.topic = .ok ())
    (hF : ¬ IndexPagesFit self → F (invalid "index page exceeds byte limit"))
    {level : Nat} (hlevel : level ≤ maxIndexLevel) {r : PageRef}
    {os : List String} {ss : List Segment} (h : self.Forest n.content [r] os ss)
    (hnodup : os.Nodup) (hle : r.level ≤ level) (hmax : r.nextOffset ≤ i64Max) :
    self.Drafts (self.indexPathTo r level) n (fun r' n' => ∃ os',
      self.Planted n n' os r' os' ss ∧
        r'.bounds = (r.firstOffset, r.nextOffset, r.segmentCount, level)) F :=
  indexPathLoop_drafts htopic hF hlevel _ h hnodup (by omega) hmax

/-- A row that is not full has room for one more page when its last page is full. -/
theorem Row.length_lt {level : Nat} {children : List PageRef} {a b : Int} {r : PageRef}
    (h : self.Row level children a b) (hlevel : r.level = level + 1)
    (hlen : children.length ≤ pageEntries) (hfull : ∀ c ∈ children, c.full = true)
    (hcount : countBelow children = r.segmentCount) (hmax : r.segmentCount ≤ u64Max)
    (htop : r.level ≤ maxIndexLevel) (hnot : r.full = false) :
    children.length < pageEntries := by
  by_contra hge
  have hlen' : children.length = pageEntries := by omega
  have htotal := Row.count_of_full hfull h.level_eq
  rw [hlen', hcount] at htotal
  have hne : r.segmentCount ≠ levelCapacity r.level := fun heq => by
    simp [full_iff.mpr heq] at hnot
  rcases Nat.lt_or_ge (level + 1) maxIndexLevel with hlt | hge'
  · rw [hlevel, levelCapacity_succ hlt] at hne
    exact hne htotal
  · have htop' : level = 9 := by
      have : maxIndexLevel = 10 := rfl
      omega
    subst htop'
    rw [htotal] at hmax
    exact absurd hmax (by decide)

/-- Objects that are either apart from `os₁` or fresh. -/
private theorem apart (base : List String) {n : Notes Body} {os₁ tos : List String} {init : List PageRef}
    {ss₁ : List Segment} (hinit : self.Forest n.content init os₁ ss₁)
    (hobjects : ∀ o ∈ tos, o ∈ base ∧ o ∉ os₁ ∨ n.content o = none ∧ self.Named o) :
    ∀ o ∈ tos, o ∉ os₁ := by
  intro o ho hos
  rcases hobjects o ho with ⟨-, hnot⟩ | ⟨hnone, -⟩
  · exact hnot hos
  · exact hinit.content_ne_none hos hnone

private theorem root_apart {content content' : String → Option Body} {init rest : List PageRef}
    {os₁ tos : List String} {ss₁ ss : List Segment} (hinit : self.Forest content init os₁ ss₁)
    (hrest : self.Forest content' rest tos ss) (h : ∀ o ∈ tos, o ∉ os₁) {c : PageRef}
    (hc : c ∈ rest) : c.object ∉ init.map (·.object) := by
  intro hmem
  obtain ⟨d, hd, heq⟩ := List.mem_map.mp hmem
  exact h _ (hrest.roots_mem hc) (heq ▸ hinit.roots_mem hd)

/-- A branch that keeps its first children and gets others at the right. -/
theorem Planted.rightmost {n n₁ n' : Notes Body} {base os₁ tos : List String} {r : PageRef}
    {init rest : List PageRef} {ss₁ ss : List Segment} (hn : n.Grows n₁)
    (hinit : self.Forest n.content init os₁ ss₁) (hrest : self.Forest n₁.content rest tos ss)
    (hnodup₁ : os₁.Nodup) (hnodup : tos.Nodup) (hbase : ∀ o ∈ os₁, o ∈ base)
    (hobjects : ∀ o ∈ tos, o ∈ base ∧ o ∉ os₁ ∨ n.content o = none ∧ self.Named o)
    (hwrote : self.Wrote n₁ n' r (.branch (init ++ rest))) :
    self.Planted n n' base r (r.object :: (os₁ ++ tos)) (ss₁ ++ ss) := by
  refine Planted.branch hn ((hinit.grows hn).append hrest) (List.nodup_append.mpr
    ⟨hnodup₁, hnodup, ?_⟩) ?_ hwrote
  · rintro o ho o' ho' rfl
    exact apart base hinit hobjects o ho' ho
  · intro o ho
    rcases List.mem_append.mp ho with ho | ho
    · exact .inl (hbase o ho)
    · exact (hobjects o ho).imp_left And.left

/-! ## Adding a leaf at the right -/

/-- `r` is `tree` with the segments of `leaf` at its right, built of the objects `base` and new
ones; only the right edge of the tree was replaced. -/
def Inserted (log : PartitionLog) (n n' : Notes Body) (base : List String) (tree leaf r : PageRef)
    (ss : List Segment) : Prop :=
  ∃ os', log.Planted n n' base r os' ss ∧ r.firstOffset = tree.firstOffset ∧
    r.nextOffset = leaf.nextOffset ∧ r.segmentCount = tree.segmentCount + leaf.segmentCount ∧
    (tree.full = false → r.level = tree.level) ∧ Keeps n.content n'.content tree r

section Insert

variable (htopic : validateTopic self.topic = .ok ())
  (hF : ¬ IndexPagesFit self → F (invalid "index page exceeds byte limit"))
  {tree leaf : PageRef} {los : List String} {lss : List Segment}
  (hleaf : self.Forest n.content [leaf] los lss) (hlevel : leaf.level = 0)
  (hmax : leaf.nextOffset ≤ i64Max) (hadjoin : tree.nextOffset = leaf.firstOffset)

include htopic hF hleaf hlevel hmax hadjoin

/-- A full tree becomes the left child of a new root. -/
theorem insertRoot_drafts {os : List String} {ss : List Segment}
    (htree : self.Forest n.content [tree] os ss) (hnodup : (os ++ los).Nodup)
    (hfull : tree.full = true) (htop : tree.level ≠ maxIndexLevel) :
    self.Drafts (do
      let right ← self.indexPathTo leaf tree.level
      self.writePage (.branch [tree, right])) n
      (fun r n' => self.Inserted n n' (os ++ los) tree leaf r (ss ++ lss)) F := by
  obtain ⟨hnodupTree, hnodupLeaf, hdisjoint⟩ := List.nodup_append.mp hnodup
  have hvalid := validatePageRef_eq_ok.mp htree.root_valid
  -- the leaf is put under a chain of branches as high as the tree
  refine drafting_bind (indexPathTo_drafts htopic hF hvalid.2.1 hleaf hnodupLeaf (by omega) hmax) ?_
  rintro right n₁ hn₁ ⟨ros, hright, hbounds⟩
  simp only [PageRef.bounds, Prod.mk.injEq] at hbounds
  obtain ⟨hfirst, hnext, hcount, hrlevel⟩ := hbounds
  have hobjects : ∀ o ∈ ros, o ∈ os ++ los ∧ o ∉ os ∨ n.content o = none ∧ self.Named o :=
    fun o ho => (hright.objects o ho).imp_left fun hlos =>
      ⟨List.mem_append_right _ hlos, fun hos => hdisjoint o hos o hlos rfl⟩
  -- the chain is the right neighbour of the tree
  have hrow : self.Row tree.level [tree, right] tree.firstOffset right.nextOffset :=
    (Row.singleton htree.root_valid).snoc (by simpa using hfull)
      hright.forest.root_valid hrlevel (by rw [hfirst, ← hadjoin])
      (root_apart htree hright.forest (apart _ htree hobjects) (List.mem_singleton_self right))
  refine drafting_mono (writeBranch_drafts htopic hrow (by simp) (by simp [pageEntries])
    (lt_of_le_of_ne hvalid.2.1 htop) (by omega) hF
    fun r n' hr hwrote => And.intro hr hwrote) ?_ fun _ => id
  rintro r n' hn' ⟨hr, hwrote⟩
  -- the root over both is one level higher
  simp only [PageRef.bounds, countBelow_cons, countBelow_nil, add_zero, Prod.mk.injEq] at hr
  exact ⟨_, Planted.rightmost hn₁ htree hright.forest hnodupTree
    hright.nodup (fun o ho => List.mem_append_left _ ho) hobjects hwrote, hr.1, by omega,
    by omega, by simp [hfull], .of_mem (hn₁.trans hn') hwrote.stored.body (by simp)⟩

section Branch

variable {init : List PageRef} {last : PageRef} {os₁ os₂ : List String} {ss₁ ss₂ : List Segment}
  (page : self.StoredPage n.content tree (.branch (init ++ [last])))
  (hinit : self.Forest n.content init os₁ ss₁) (hlast : self.Forest n.content [last] os₂ ss₂)
  (hnodup : ((tree.object :: (os₁ ++ os₂)) ++ los).Nodup) (hnot : tree.full = false)

include page hinit hlast hnodup hnot

/-- Next to a full last child of a tree that has room, the leaf becomes its neighbour. -/
theorem insertNeighbour_drafts (hfullLast : last.full = true) :
    self.Drafts (do
      let right ← self.indexPathTo leaf last.level
      self.writePage (.branch (init ++ [last, right]))) n
      (fun r n' => self.Inserted n n' ((tree.object :: (os₁ ++ os₂)) ++ los) tree leaf r
        (ss₁ ++ (ss₂ ++ lss))) F := by
  obtain ⟨hnodupTree, hnodupLeaf, hdisjoint⟩ := List.nodup_append.mp hnodup
  obtain ⟨hnodupInit, hnodupLast, hdisjoint'⟩ := List.nodup_append.mp (List.nodup_cons.mp hnodupTree).2
  obtain ⟨-, hlen, hcount, hcountmax, hpos, htop, hrow⟩ := checkPage_branch_eq_ok.mp page.check
  have hlevelLast := hrow.level_eq last (by simp)
  have hend : last.nextOffset = tree.nextOffset := hrow.tiles.getLast
  have hfull : ∀ c ∈ init ++ [last], c.full = true := by
    intro c hc
    rcases List.mem_append.mp hc with hc | hc
    · exact hrow.full_of_snoc c hc
    · rw [List.mem_singleton.mp hc]
      exact hfullLast
  have hroom := hrow.length_lt (by omega) hlen hfull hcount hcountmax htop hnot
  refine drafting_bind (indexPathTo_drafts htopic hF (by omega) hleaf hnodupLeaf (by omega) hmax) ?_
  rintro right n₁ hn₁ ⟨ros, hright, hbounds⟩
  simp only [PageRef.bounds, Prod.mk.injEq] at hbounds
  obtain ⟨hfirst, hnext, hcountRight, hrlevel⟩ := hbounds
  -- the chain above the leaf shares no page with the tree
  have hros : ∀ o ∈ ros, o ∉ os₂ := by
    refine apart (os₂ ++ los) hlast fun o ho => ?_
    exact (hright.objects o ho).imp_left fun hlos =>
      ⟨by simp [hlos], fun hos => hdisjoint o (by simp [hos]) o hlos rfl⟩
  have hobjects : ∀ o ∈ os₂ ++ ros, o ∈ (tree.object :: (os₁ ++ os₂)) ++ los ∧ o ∉ os₁ ∨
      n.content o = none ∧ self.Named o := by
    intro o ho
    rcases List.mem_append.mp ho with ho | ho
    · exact .inl ⟨by simp [ho], fun hos => hdisjoint' o hos o ho rfl⟩
    · exact (hright.objects o ho).imp_left fun hlos =>
        ⟨by simp [hlos], fun hos => hdisjoint o (by simp [hos]) o hlos rfl⟩
  have hrest := (Forest.grows hlast hn₁).append hright.forest
  have hrow' := hrow.snoc hfull hright.forest.root_valid (by omega) (by rw [hfirst, ← hadjoin]) (by
    simp only [List.map_append, List.mem_append, not_or]
    exact ⟨root_apart hinit hrest (apart _ hinit hobjects) (by simp),
      root_apart hlast hright.forest hros (List.mem_singleton_self right)⟩)
  rw [List.append_assoc] at hrow'
  refine drafting_mono (writeBranch_drafts htopic hrow' (by simp) (by simp at hroom ⊢; omega)
    (by omega) (by omega) hF fun r n' hr hwrote => And.intro hr hwrote) ?_ fun _ => id
  rintro r n' hn' ⟨hr, hwrote⟩
  simp only [PageRef.bounds, countBelow_append, countBelow_cons, countBelow_nil, add_zero,
    Prod.mk.injEq] at hr hcount
  refine ⟨_, Planted.rightmost hn₁ hinit hrest hnodupInit
    (List.nodup_append.mpr ⟨hnodupLast, hright.nodup, ?_⟩) (fun o ho => by simp [ho]) hobjects hwrote,
    hr.1, by omega, by omega, fun _ => by omega, .branch (hn₁.trans hn') page.body
    hwrote.stored.body fun p hp => .inr ⟨last, by simp, hp.grows (hn₁.trans hn')⟩⟩
  rintro o ho o' ho' rfl
  exact hros o ho' ho

omit hleaf hlevel hadjoin hlast hnot in
/-- A last child that has room takes the leaf, and is replaced by what comes of it. -/
theorem insertBelow_drafts (hnotLast : last.full = false)
    (hbelow : self.Drafts (self.insertLeaf last leaf) n
      (fun r n' => self.Inserted n n' (os₂ ++ los) last leaf r (ss₂ ++ lss)) F) :
    self.Drafts (do
      let child ← self.insertLeaf last leaf
      self.writePage (.branch (init ++ [child]))) n
      (fun r n' => self.Inserted n n' ((tree.object :: (os₁ ++ os₂)) ++ los) tree leaf r
        (ss₁ ++ (ss₂ ++ lss))) F := by
  obtain ⟨hnodupTree, -, hdisjoint⟩ := List.nodup_append.mp hnodup
  obtain ⟨hnodupInit, -, hdisjoint'⟩ := List.nodup_append.mp (List.nodup_cons.mp hnodupTree).2
  obtain ⟨-, hlen, hcount, hcountmax, hpos, htop, hrow⟩ := checkPage_branch_eq_ok.mp page.check
  -- the last child is replaced by one of the same level
  have hlevelLast := hrow.level_eq last (by simp)
  have hend : last.nextOffset = tree.nextOffset := hrow.tiles.getLast
  refine drafting_bind hbelow ?_
  rintro child n₁ hn₁ ⟨cos, hchild, hfirst, hnext, hcountChild, hclevel, hkeeps⟩
  -- the pages below the new child are its own
  have hobjects : ∀ o ∈ cos, o ∈ (tree.object :: (os₁ ++ os₂)) ++ los ∧ o ∉ os₁ ∨
      n.content o = none ∧ self.Named o := by
    intro o ho
    refine (hchild.objects o ho).imp_left fun hmem => ?_
    rcases List.mem_append.mp hmem with hmem | hmem
    · exact ⟨by simp [hmem], fun hos => hdisjoint' o hos o hmem rfl⟩
    · exact ⟨by simp [hmem], fun hos => hdisjoint o (by simp [hos]) o hmem rfl⟩
  -- the row of the children stays a row
  have hrow' := hrow.dropLast_of_snoc.snoc hrow.full_of_snoc hchild.forest.root_valid
    (by have := hclevel hnotLast; omega) hfirst
    (root_apart hinit hchild.forest (apart _ hinit hobjects) (List.mem_singleton_self child))
  refine drafting_mono (writeBranch_drafts htopic hrow' (by simp) (by simpa using hlen)
    (by omega) (by omega) hF fun r n' hr hwrote => And.intro hr hwrote) ?_ fun _ => id
  rintro r n' hn' ⟨hr, hwrote⟩
  simp only [PageRef.bounds, countBelow_append, countBelow_cons, countBelow_nil, add_zero,
    Prod.mk.injEq] at hr hcount
  refine ⟨_, Planted.rightmost hn₁ hinit hchild.forest hnodupInit hchild.nodup
    (fun o ho => by simp [ho]) hobjects hwrote, hr.1, by omega, by omega, fun _ => by omega,
    .branch (hn₁.trans hn') page.body hwrote.stored.body fun p hp => ?_⟩
  -- what was below the children is below them now
  exact (hkeeps p hp).imp_right fun h => ⟨child, by simp, h.grows hn'⟩

end Branch

omit hadjoin in
/-- The new leaf stands at the right of the tree, and only its right edge is replaced. -/
theorem insertLeaf_drafts : ∀ {os : List String} {ss : List Segment},
    self.Forest n.content [tree] os ss → (os ++ los).Nodup → tree.nextOffset = leaf.firstOffset →
    self.Drafts (self.insertLeaf tree leaf) n
      (fun r n' => self.Inserted n n' (os ++ los) tree leaf r (ss ++ lss)) F := by
  -- the level of the tree decreases from a branch to its last child
  induction hl : tree.level using Nat.strong_induction_on generalizing tree with
  | _ level ih =>
    intro os ss htree hnodup hadjoin
    rw [insertLeaf]
    split
    · rename_i hfull
      split
      · -- a full tree of the last level would hold more segments than there are offsets
        rename_i htop
        have hcount := full_iff.mp hfull
        rw [htop, levelCapacity_of_ge le_rfl] at hcount
        obtain ⟨-, -, hstart, -, -, hwidth, -⟩ := validatePageRef_eq_ok.mp htree.root_valid
        obtain ⟨-, -, -, hrange, -⟩ := validatePageRef_eq_ok.mp hleaf.root_valid
        rw [hcount] at hwidth
        simp only [i64Max, u64Max] at hmax hwidth
        omega
      · rename_i htop
        exact insertRoot_drafts htopic hF hleaf hlevel hmax hadjoin htree hnodup hfull htop
    · rename_i hnot
      have hnot' : tree.full = false := by simpa using hnot
      cases htree with
      | @leaf _ _ segments rest objects page hnil =>
        -- every sealed leaf is full
        have hcount := checkPage_leaf.mp page.check
        exact absurd (full_iff.mpr (by rw [hcount.2.1, hcount.2.2.1]; decide)) hnot
      | @branch _ children _ _ objects page hchildren =>
        refine readPage_bind_drafts page ?_
        obtain ⟨hne, -, -, -, hpos, -, hrow⟩ := checkPage_branch_eq_ok.mp page.check
        rw [List.append_nil] at hchildren
        dsimp only
        split
        · rename_i hlast
          exact absurd (List.getLast?_eq_none_iff.mp hlast) hne
        · rename_i last hlast
          obtain ⟨init, rfl⟩ : ∃ init, children = init ++ [last] :=
            ⟨children.dropLast, (List.dropLast_append_getLast? last hlast).symm⟩
          obtain ⟨os₁, os₂, ss₁, ss₂, rfl, rfl, hinit, hlastTree⟩ := hchildren.split
          simp only [List.dropLast_concat, List.append_assoc ss₁]
          split
          · rename_i hfullLast
            exact insertNeighbour_drafts htopic hF hleaf hlevel hmax hadjoin page hinit hlastTree
              hnodup hnot' hfullLast
          · rename_i hnotLast
            have hlevelLast := hrow.level_eq last (by simp)
            have hend : last.nextOffset = tree.nextOffset := hrow.tiles.getLast
            have hnodup' : (os₂ ++ los).Nodup := by
              refine hnodup.sublist (List.Sublist.append_right ?_ los)
              exact (List.sublist_append_right os₁ os₂).cons _
            exact insertBelow_drafts htopic hF hmax page hinit hnodup (by simpa using hnotLast)
              (ih last.level (by omega) rfl hlastTree hnodup' (hend.trans hadjoin))

end Insert

end PartitionLog

end Walstream.Log

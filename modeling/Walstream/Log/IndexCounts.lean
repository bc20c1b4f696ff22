import Walstream.Log.IndexGrowth
import Mathlib.Algebra.Order.Floor.Div

/-!
# The shape of an index tree

All pages of a level but the last are full. So the level of a page and the number of segments
below it determine everything else about its tree: how many pages each level has, and how many
children each page. A tree is *snug* when its segments do not fit a tree of a lower level.

- `Walk.objects_length`: the number of pages below references.
- `pagesBelow_snug_le`: no valid tree over as many segments has fewer pages than a snug one.
- `alike_of_snug`: two snug trees over corresponding segments correspond page by page.
-/

namespace Walstream.Log

open Interaction Tiling

/-- The segments hold the same range of offsets; they may differ in their objects. -/
def Segment.SameRange (s s' : Segment) : Prop :=
  s.baseOffset = s'.baseOffset ∧ s.recordCount = s'.recordCount

theorem Segment.SameRange.endOffset {s s' : Segment} (h : s.SameRange s') :
    s.endOffset = s'.endOffset := by
  rw [Segment.endOffset, Segment.endOffset, h.1, h.2]

namespace PartitionLog

variable {self : PartitionLog}

/-! ## Capacities -/

theorem levelCapacity_mono {level level' : Nat} (h : level ≤ level') :
    levelCapacity level ≤ levelCapacity level' := by
  rcases Nat.lt_or_ge level' maxIndexLevel with hlt | hge
  · rw [levelCapacity_of_lt hlt, levelCapacity_of_lt (by omega)]
    exact Nat.pow_le_pow_right (by decide) (by omega)
  · rw [levelCapacity_of_ge hge]
    rcases Nat.lt_or_ge level maxIndexLevel with hlt | hge'
    · have hpow : pageEntries ^ (level + 1) ≤ pageEntries ^ maxIndexLevel :=
        Nat.pow_le_pow_right (by decide) (by omega)
      rw [levelCapacity_of_lt hlt]
      exact hpow.trans (by decide)
    · rw [levelCapacity_of_ge hge']

/-- A page of a lower level would be too small for the segments below this one. -/
def Snug (r : PageRef) : Prop := r.level = 0 ∨ levelCapacity (r.level - 1) < r.segmentCount

/-- A tree with at least as many segments as a snug one is at least as high. -/
theorem Snug.level_le {r r' : PageRef} (h : Snug r) (hr' : self.validatePageRef r' = .ok ())
    (hcount : r.segmentCount ≤ r'.segmentCount) : r.level ≤ r'.level := by
  rcases h with hzero | hlarge
  · omega
  · by_contra hlower
    have hcapacity : r'.segmentCount ≤ levelCapacity r'.level :=
      (validatePageRef_eq_ok.mp hr').2.2.2.2.2.2.1
    have hmono : levelCapacity r'.level ≤ levelCapacity (r.level - 1) :=
      levelCapacity_mono (by omega)
    omega

/-! ## Pages below a reference -/

/-- The pages at and below a page of this level over `count` segments: on each level, one page
for every part of the segments that it can hold. -/
def pagesBelow (count : Nat) : Nat → Nat
  | 0 => count ⌈/⌉ pageEntries
  | level + 1 => pagesBelow count level + count ⌈/⌉ pageEntries ^ (level + 1 + 1)

theorem ceilDiv_add_of_dvd {a b d : Nat} (hd : 0 < d) (h : d ∣ a) :
    (a + b) ⌈/⌉ d = a / d + b ⌈/⌉ d := by
  obtain ⟨k, rfl⟩ := h
  rw [Nat.ceilDiv_eq_add_pred_div, Nat.ceilDiv_eq_add_pred_div, Nat.mul_div_cancel_left _ hd,
    show d * k + b + d - 1 = d * k + (b + d - 1) by omega, Nat.mul_add_div hd]

theorem ceilDiv_eq_one {count d : Nat} (hpos : 0 < count) (hle : count ≤ d) :
    count ⌈/⌉ d = 1 := by
  rw [Nat.ceilDiv_eq_add_pred_div, Nat.div_eq_iff (by omega)]
  omega

/-- The segments of full pages and those of one more page are on different pages. -/
theorem pagesBelow_add {level a b : Nat} (h : pageEntries ^ (level + 1) ∣ a) :
    pagesBelow (a + b) level = pagesBelow a level + pagesBelow b level := by
  have hlevel : ∀ {d : Nat}, 0 < d → d ∣ a → (a + b) ⌈/⌉ d = a ⌈/⌉ d + b ⌈/⌉ d := by
    intro d hd hdvd
    have hself := ceilDiv_add_of_dvd (b := 0) hd hdvd
    rw [Nat.add_zero, zero_ceilDiv, Nat.add_zero] at hself
    rw [ceilDiv_add_of_dvd hd hdvd, hself]
  induction level with
  | zero => exact hlevel (by decide) (by simpa using h)
  | succ level ih =>
    rw [pagesBelow, pagesBelow, pagesBelow, ih ((pow_dvd_pow _ (by omega)).trans h),
      hlevel (Nat.pow_pos (by decide)) h]
    omega

theorem pagesBelow_mono {count count' level level' : Nat} (hcount : count ≤ count')
    (hlevel : level ≤ level') : pagesBelow count level ≤ pagesBelow count' level' := by
  have hceil : ∀ d : Nat, count ⌈/⌉ d ≤ count' ⌈/⌉ d := fun d => by
    rw [Nat.ceilDiv_eq_add_pred_div, Nat.ceilDiv_eq_add_pred_div]
    exact Nat.div_le_div_right (by omega)
  induction level' with
  | zero =>
    obtain rfl : level = 0 := by omega
    exact hceil _
  | succ level' ih =>
    rcases Nat.lt_or_ge level' level with hlt | hge
    · obtain rfl : level = level' + 1 := by omega
      clear ih hlevel hlt
      -- the same levels on both sides
      generalize level' + 1 = n
      induction n with
      | zero => exact hceil _
      | succ n ih => exact Nat.add_le_add ih (hceil _)
    · exact (ih hge).trans (Nat.le_add_right _ _)

namespace Row

variable {level : Nat} {children : List PageRef} {a b : Int}

theorem tail {c : PageRef} (h : self.Row level (c :: children) a b) :
    self.Row level children c.nextOffset b where
  tiles := h.tiles.2.2
  valid := fun d hd => h.valid d (by simp [hd])
  level_eq := fun d hd => h.level_eq d (by simp [hd])
  full := fun d hd => h.full d (by
    rw [List.dropLast_cons_of_ne_nil (by rintro rfl; simp at hd)]
    exact List.mem_cons_of_mem _ hd)
  nodup := (List.nodup_cons.mp h.nodup).2

theorem head_full {c : PageRef} (h : self.Row level (c :: children) a b) (hne : children ≠ []) :
    c.segmentCount = levelCapacity level := by
  have hfull := full_iff.mp (h.full c (by rw [List.dropLast_cons_of_ne_nil hne]; simp))
  rwa [h.level_eq c (by simp)] at hfull

/-- The pages below a row are those below a page over all of its segments, that page apart. -/
theorem sum_pagesBelow (h : self.Row level children a b) (hlevel : level < maxIndexLevel) :
    (children.map fun c => pagesBelow c.segmentCount c.level).sum =
      pagesBelow (countBelow children) level := by
  induction children generalizing a with
  | nil =>
    have hzero : ∀ level, pagesBelow 0 level = 0 := fun level => by
      induction level with
      | zero => simp [pagesBelow]
      | succ level ih => simp [pagesBelow, ih]
    simp [hzero]
  | cons c children ih =>
    have hc := h.level_eq c (by simp)
    rw [List.map_cons, List.sum_cons, ih h.tail, countBelow_cons, hc]
    cases children with
    | nil =>
      have hnil : pagesBelow 0 level = 0 := by simpa using (ih h.tail).symm
      simp [hnil]
    | cons d rest =>
      -- a page with another one behind it is full
      have hfull := h.head_full (by simp)
      rw [levelCapacity_of_lt hlevel] at hfull
      rw [pagesBelow_add ⟨1, by rw [hfull, Nat.mul_one]⟩]

end Row

namespace Walk

variable {page : PageRef → Page → Prop} {pages : List PageRef} {os : List String}
  {ss : List Segment} (hcheck : ∀ r p, page r p → self.checkPage r p = .ok ())

include hcheck

/-- Levels and counts determine how many pages there are. -/
theorem objects_length (h : Walk page pages os ss) (hvalid : ∀ r ∈ pages, 0 < r.segmentCount) :
    os.length = (pages.map fun r => pagesBelow r.segmentCount r.level).sum := by
  induction h with
  | nil => rfl
  | leaf hpage _ ih =>
    obtain ⟨-, hcount, hlevel, -⟩ := checkPage_leaf.mp (hcheck _ _ hpage)
    rw [List.length_cons, ih fun r hr => hvalid r (by simp [hr]), List.map_cons, List.sum_cons,
      hcount, hlevel]
    have hone : pagesBelow pageEntries 0 = 1 := by decide
    omega
  | @branch r children rest segments objects hpage _ ih =>
    obtain ⟨hne, hlength, hcount, -, hpos, htop, hrow⟩ :=
      checkPage_branch_eq_ok.mp (hcheck _ _ hpage)
    have hchildren : ∀ c ∈ children, 0 < c.segmentCount := fun c hc =>
      (validatePageRef_eq_ok.mp (hrow.valid c hc)).2.2.2.2.1
    have hlevel : r.level - 1 < maxIndexLevel := by omega
    rw [List.length_cons, ih fun d hd => (List.mem_append.mp hd).elim (hchildren d)
      fun hd => hvalid d (by simp [hd])]
    rw [List.map_append, List.sum_append, hrow.sum_pagesBelow hlevel, hcount, List.map_cons,
      List.sum_cons]
    -- the page itself is the only one of its level
    have hr := hvalid r (by simp)
    have hcapacity := hrow.count_le_capacity
    rw [hcount, levelCapacity_of_lt hlevel] at hcapacity
    obtain ⟨level, hlevelEq⟩ : ∃ level, r.level = level + 1 := ⟨r.level - 1, by omega⟩
    rw [hlevelEq, Nat.add_sub_cancel] at hcapacity
    have hone : r.segmentCount ⌈/⌉ pageEntries ^ (level + 1 + 1) = 1 := by
      refine ceilDiv_eq_one hr (hcapacity.trans ?_)
      rw [pow_succ pageEntries (level + 1), Nat.mul_comm]
      exact Nat.mul_le_mul_left _ hlength
    rw [hlevelEq, Nat.add_sub_cancel, pagesBelow, hone]
    omega

/-- Leaves are full, so the segments of a tree fill leaves. -/
theorem dvd_length (h : Walk page pages os ss) : pageEntries ∣ ss.length := by
  induction h with
  | nil => exact Nat.dvd_zero _
  | leaf hpage _ ih =>
    obtain ⟨hlength, -⟩ := checkPage_leaf.mp (hcheck _ _ hpage)
    rw [List.length_append, hlength]
    exact Nat.dvd_add (Nat.dvd_refl _) ih
  | branch _ _ ih => exact ih

end Walk

/-- No valid tree over at least as many segments has fewer pages than a snug one. -/
theorem pagesBelow_snug_le {r r' : PageRef} (h : Snug r) (hr' : self.validatePageRef r' = .ok ())
    (hcount : r.segmentCount ≤ r'.segmentCount) :
    pagesBelow r.segmentCount r.level ≤ pagesBelow r'.segmentCount r'.level :=
  pagesBelow_mono hcount (h.level_le hr' hcount)

/-! ## Corresponding trees -/

section Alike

variable {page page' : PageRef → Page → Prop} {R : Segment → Segment → Prop}

/-- Two lists of references, and everything below them, correspond: page by page they have the
same range, count and level, the same number of children, and corresponding segments. -/
inductive Alike (page page' : PageRef → Page → Prop) (R : Segment → Segment → Prop) :
    List PageRef → List PageRef → Prop where
  | nil : Alike page page' R [] []
  | leaf {r r' : PageRef} {rest rest' : List PageRef} {segments segments' : List Segment}
      (hbounds : r.bounds = r'.bounds) (hpage : page r (.leaf segments))
      (hpage' : page' r' (.leaf segments')) (hsegments : List.Forall₂ R segments segments')
      (hrest : Alike page page' R rest rest') : Alike page page' R (r :: rest) (r' :: rest')
  | branch {r r' : PageRef} {rest rest' children children' : List PageRef}
      (hbounds : r.bounds = r'.bounds) (hpage : page r (.branch children))
      (hpage' : page' r' (.branch children')) (hbelow : Alike page page' R children children')
      (hrest : Alike page page' R rest rest') : Alike page page' R (r :: rest) (r' :: rest')

theorem Alike.append {pages pages' qs qs' : List PageRef} (h : Alike page page' R pages pages')
    (hq : Alike page page' R qs qs') : Alike page page' R (pages ++ qs) (pages' ++ qs') := by
  induction h with
  | nil => exact hq
  | leaf hbounds hpage hpage' hsegments _ ih => exact .leaf hbounds hpage hpage' hsegments ih
  | branch hbounds hpage hpage' hbelow _ _ ih => exact .branch hbounds hpage hpage' hbelow ih

/-- Corresponding segments lie over the same range. -/
theorem tiles_range {ss ss' : List Segment} {a b a' b' : Int}
    (hR : ∀ s s', R s s' → s.SameRange s') (h : List.Forall₂ R ss ss')
    (htiles : SegmentTiles ss a b) (htiles' : SegmentTiles ss' a' b') (hne : ss ≠ []) :
    a = a' ∧ b = b' := by
  cases h with
  | nil => exact absurd rfl hne
  | @cons s s' rest rest' hs hrest =>
    have hsame := hR s s' hs
    refine ⟨htiles.1.symm.trans (hsame.1.trans htiles'.1), ?_⟩
    clear hne
    have hend : s.endOffset = s'.endOffset := hsame.endOffset
    replace htiles := htiles.2.2
    replace htiles' := htiles'.2.2
    rw [hend] at htiles
    clear hs hsame hend
    -- from here on both lie end to end from the same offset
    generalize s'.endOffset = c at htiles htiles'
    induction hrest generalizing c with
    | nil => exact htiles.symm.trans htiles'
    | @cons t t' _ _ ht _ ih =>
      have hend := (hR t t' ht).endOffset
      exact ih _ (hend ▸ htiles.2.2) htiles'.2.2

section Checked

variable (hcheck : ∀ r p, page r p → self.checkPage r p = .ok ())
  (hcheck' : ∀ r p, page' r p → self.checkPage r p = .ok ())
  (hR : ∀ s s', R s s' → s.SameRange s')

include hcheck hcheck'

/-- Rows over corresponding segments correspond if single pages do. -/
theorem alike_of_rows {level : Nat} (hpages : ∀ {r r' : PageRef} {os os' : List String}
      {ss ss' : List Segment}, Walk page [r] os ss → Walk page' [r'] os' ss' → r.level = level →
      r'.level = level → List.Forall₂ R ss ss' → Alike page page' R [r] [r']) :
    ∀ {cs cs' : List PageRef} {os os' : List String} {ss ss' : List Segment} {a b a' b' : Int},
      self.Row level cs a b → self.Row level cs' a' b' → Walk page cs os ss →
      Walk page' cs' os' ss' → List.Forall₂ R ss ss' → Alike page page' R cs cs' := by
  intro cs
  induction cs with
  | nil =>
    intro cs' os os' ss ss' a b a' b' _ hrow' hwalk hwalk' hss
    cases cs' with
    | nil => exact .nil
    | cons c' cs' =>
      have hcount := hss.length_eq
      rw [hwalk.count hcheck, hwalk'.count hcheck', countBelow_nil, countBelow_cons] at hcount
      have hpos := (validatePageRef_eq_ok.mp (hrow'.valid c' (by simp))).2.2.2.2.1
      omega
  | cons c cs ih =>
    intro cs' os os' ss ss' a b a' b' hrow hrow' hwalk hwalk' hss
    have hcount := hss.length_eq
    rw [hwalk.count hcheck, hwalk'.count hcheck'] at hcount
    have hc := (validatePageRef_eq_ok.mp (hrow.valid c (by simp)))
    have hpos := hc.2.2.2.2.1
    have hle := hc.2.2.2.2.2.2.1
    rw [capacity_eq, hrow.level_eq c (by simp)] at hle
    cases cs' with
    | nil =>
      rw [countBelow_nil, countBelow_cons] at hcount
      omega
    | cons c' cs' =>
      have hc' := (validatePageRef_eq_ok.mp (hrow'.valid c' (by simp)))
      have hpos' := hc'.2.2.2.2.1
      have hle' := hc'.2.2.2.2.2.2.1
      rw [capacity_eq, hrow'.level_eq c' (by simp)] at hle'
      rw [countBelow_cons, countBelow_cons] at hcount
      obtain ⟨os₁, os₂, ss₁, ss₂, rfl, rfl, hfirst, hrest⟩ := hwalk.split_head
      obtain ⟨os₁', os₂', ss₁', ss₂', rfl, rfl, hfirst', hrest'⟩ := hwalk'.split_head
      have hlen := hfirst.count hcheck
      have hlen' := hfirst'.count hcheck'
      rw [countBelow_cons, countBelow_nil, Nat.add_zero] at hlen hlen'
      -- both are full, or both are the last ones
      have hsame : c.segmentCount = c'.segmentCount := by
        by_cases hlast : cs = []
        · by_cases hlast' : cs' = []
          · subst hlast hlast'
            simpa using hcount
          · have hfull' := hrow'.head_full hlast'
            obtain ⟨d, ds, rfl⟩ := List.exists_cons_of_ne_nil hlast'
            have hd := (validatePageRef_eq_ok.mp (hrow'.valid d (by simp))).2.2.2.2.1
            subst hlast
            rw [countBelow_nil, countBelow_cons] at hcount
            omega
        · have hfull := hrow.head_full hlast
          by_cases hlast' : cs' = []
          · obtain ⟨d, ds, rfl⟩ := List.exists_cons_of_ne_nil hlast
            have hd := (validatePageRef_eq_ok.mp (hrow.valid d (by simp))).2.2.2.2.1
            subst hlast'
            rw [countBelow_nil, countBelow_cons] at hcount
            omega
          · rw [hfull, hrow'.head_full hlast']
      have hsplit : ss₁.length = ss₁'.length := by omega
      have htake := List.forall₂_take ss₁.length hss
      have hdrop := List.forall₂_drop ss₁.length hss
      rw [List.take_left, hsplit, List.take_left] at htake
      rw [List.drop_left, hsplit, List.drop_left] at hdrop
      exact (hpages hfirst hfirst' (hrow.level_eq c (by simp)) (hrow'.level_eq c' (by simp))
        htake).append (ih hrow.tail hrow'.tail hrest hrest' hdrop)

include hR

/-- Trees of one level over corresponding segments correspond. -/
theorem alike_of_level (hvalid : ∀ r p, page r p → self.validatePageRef r = .ok ()) {level : Nat} :
    ∀ {r r' : PageRef} {os os' : List String} {ss ss' : List Segment}, Walk page [r] os ss →
      Walk page' [r'] os' ss' → r.level = level → r'.level = level → List.Forall₂ R ss ss' →
      Alike page page' R [r] [r'] := by
  -- on the level; both walks begin with a page of that level
  induction level using Nat.strong_induction_on with
  | _ level ih =>
  intro r r' os os' ss ss' hwalk hwalk' hr hr' hss
  have hcount := hwalk.count hcheck
  have hcount' := hwalk'.count hcheck'
  have hlength := hss.length_eq
  rw [countBelow_cons, countBelow_nil, Nat.add_zero] at hcount hcount'
  -- a leaf of full pages stands for 64 segments
  cases hwalk with
  | leaf hpage hnil =>
    cases hnil
    obtain ⟨hfull, hentries, hlevel, htiles, -⟩ := checkPage_leaf.mp (hcheck _ _ hpage)
    cases hwalk' with
    | leaf hpage' hnil' =>
      cases hnil'
      rw [List.append_nil, List.append_nil] at hss
      obtain ⟨-, hentries', -, htiles', -⟩ := checkPage_leaf.mp (hcheck' _ _ hpage')
      have hne : ∀ segments : List Segment, segments.length = pageEntries → segments ≠ [] := by
        rintro _ hlen rfl
        simp [pageEntries] at hlen
      obtain ⟨hfirst, hnext⟩ := tiles_range hR hss htiles htiles' (hne _ hfull)
      exact .leaf (by simp [PageRef.bounds, hfirst, hnext, hentries, hentries', hr, hr']) hpage
        hpage' hss .nil
    -- a branch is above level 0
    | branch hpage' _ =>
      obtain ⟨-, -, -, -, hpos, -⟩ := checkPage_branch_eq_ok.mp (hcheck' _ _ hpage')
      omega
  -- a branch has rows of the level below
  | @branch _ children _ _ _ hpage hbelow =>
    obtain ⟨hne, -, -, -, hpos, -, hrow⟩ := checkPage_branch_eq_ok.mp (hcheck _ _ hpage)
    cases hwalk' with
    | leaf hpage' _ =>
      obtain ⟨-, -, hlevel, -⟩ := checkPage_leaf.mp (hcheck' _ _ hpage')
      omega
    | @branch _ children' _ _ _ hpage' hbelow' =>
      obtain ⟨-, -, -, -, -, -, hrow'⟩ := checkPage_branch_eq_ok.mp (hcheck' _ _ hpage')
      rw [List.append_nil] at hbelow hbelow'
      rw [hr] at hrow
      rw [hr'] at hrow'
      have hpages := @ih (level - 1) (by omega)
      -- there is a segment below the branch, which fixes the range
      have hss' : ss ≠ [] := by
        have hsome := (validatePageRef_eq_ok.mp (hvalid _ _ hpage)).2.2.2.2.1
        rintro rfl
        simp at hcount
        omega
      obtain ⟨hfirst, hnext⟩ := tiles_range hR hss (hbelow.tiles hcheck hrow.tiles)
        (hbelow'.tiles hcheck' hrow'.tiles) hss'
      refine .branch ?_ hpage hpage' (alike_of_rows hcheck hcheck' hpages hrow hrow' hbelow
        hbelow' hss) .nil
      simp [PageRef.bounds, hfirst, hnext, hr, hr']
      omega

/-- Snug trees over corresponding segments correspond. -/
theorem alike_of_snug (hvalid : ∀ r p, page r p → self.validatePageRef r = .ok ())
    (hvalid' : ∀ r p, page' r p → self.validatePageRef r = .ok ()) {r r' : PageRef}
    {os os' : List String} {ss ss' : List Segment} (hr : Snug r) (hr' : Snug r')
    (hwalk : Walk page [r] os ss) (hwalk' : Walk page' [r'] os' ss') (hss : List.Forall₂ R ss ss') :
    Alike page page' R [r] [r'] := by
  have hcount := hwalk.count hcheck
  have hcount' := hwalk'.count hcheck'
  have hlength := hss.length_eq
  rw [countBelow_cons, countBelow_nil, Nat.add_zero] at hcount hcount'
  have hroot : self.validatePageRef r = .ok () := by
    cases hwalk with
    | leaf hpage _ => exact hvalid _ _ hpage
    | branch hpage _ => exact hvalid _ _ hpage
  have hroot' : self.validatePageRef r' = .ok () := by
    cases hwalk' with
    | leaf hpage _ => exact hvalid' _ _ hpage
    | branch hpage _ => exact hvalid' _ _ hpage
  have hlevel : r.level = r'.level :=
    le_antisymm (hr.level_le hroot' (by omega)) (hr'.level_le hroot (by omega))
  exact alike_of_level hcheck hcheck' hR hvalid hwalk hwalk' hlevel rfl hss

end Checked

end Alike

end PartitionLog

end Walstream.Log

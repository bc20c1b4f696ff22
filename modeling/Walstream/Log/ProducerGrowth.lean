import Walstream.Log.ProducerUpdate

/-!
# Growing the producer directory

The update of one producer walks down to a leaf, changes it, and copies the pages on the
way back, splitting those that have become too large. `Spine` is what surrounds the page
that is being replaced.
-/

namespace Walstream.Log

open Interaction

namespace PartitionLog

variable {self : PartitionLog} {n : Notes Body} {F : LogError → Prop} {nextOffset : Int}
  {content : String → Option Body}

/-! ## The way down -/

/-- What surrounds the page at the end of a path from the root: `k` states stand below
that page, `before` and `after` stand to its left and right, on the objects given. -/
inductive Spine (log : PartitionLog) (content : String → Option Body) (nextOffset : Int) :
    (level k : Nat) → ProducerPath → List String → (before after : List ProducerState) → Prop where
  | nil {level k : Nat} : Spine log content nextOffset level k [] [] [] []
  | cons {level k position : Nat} {children : List ProducerRef} {path : ProducerPath}
      {os₁ os₂ os : List String} {ss₁ ss₂ before after : List ProducerState}
      (length : 2 ≤ children.length ∧ children.length ≤ pageEntries)
      (here : children[position]?.map (·.count) = some k)
      (levels : ∀ c ∈ children, c.level = level) (thick : Thick children)
      (left : log.Grove content nextOffset (children.take position) os₁ ss₁)
      (right : log.Grove content nextOffset (children.drop (position + 1)) os₂ ss₂)
      (rest : Spine log content nextOffset (level + 1) (statesBelow children) path os before after) :
      Spine log content nextOffset level k ((children, position) :: path) (os₁ ++ os₂ ++ os)
        (before ++ ss₁) (ss₂ ++ after)

theorem statesBelow_append (cs ds : List ProducerRef) :
    statesBelow (cs ++ ds) = statesBelow cs + statesBelow ds := by simp [statesBelow]

theorem split_at_position {α : Type} {xs : List α} {i : Nat} {x : α} (h : xs[i]? = some x) :
    xs = xs.take i ++ [x] ++ xs.drop (i + 1) := by
  obtain ⟨hi, rfl⟩ := List.getElem?_eq_some_iff.mp h
  rw [List.append_assoc, List.singleton_append, ← List.drop_eq_getElem_cons hi,
    List.take_append_drop]

namespace Spine

variable {level k : Nat} {path : ProducerPath} {os : List String}
  {before after : List ProducerState}

theorem grows {n' : Notes Body}
    (h : self.Spine n.content nextOffset level k path os before after) (hn : n.Grows n') :
    self.Spine n'.content nextOffset level k path os before after := by
  induction h with
  | nil => exact .nil
  | cons length here levels thick left right _ ih =>
    exact .cons length here levels thick (left.grows hn) (right.grows hn) ih

theorem content_ne_none (h : self.Spine content nextOffset level k path os before after)
    {o : String} (ho : o ∈ os) : content o ≠ none := by
  induction h with
  | nil => simp at ho
  | cons _ _ _ _ left right _ ih =>
    rcases List.mem_append.mp ho with ho | ho
    · rcases List.mem_append.mp ho with ho | ho
      · exact left.content_ne_none ho
      · exact right.content_ne_none ho
    · exact ih ho

/-- A page below the root is at least half full. -/
theorem fill_le (h : self.Spine content nextOffset level k path os before after)
    (hpath : path ≠ []) : fill level ≤ k := by
  cases h with
  | nil => exact absurd rfl hpath
  | cons _ here levels thick _ _ _ =>
    obtain ⟨c, hc, hcount⟩ := Option.map_eq_some_iff.mp here
    have hmem := List.mem_of_getElem? hc
    have := thick c hmem
    rw [levels c hmem] at this
    omega

end Spine

/-- The child that the update follows: everything before it lies below the id, and it is
the last one or reaches the id. -/
theorem childPosition_spec (children : List ProducerRef) (id : Int) (hne : children ≠ []) :
    ∃ child, children[childPosition children id]? = some child ∧
      (∀ c ∈ children.take (childPosition children id), c.lastId < id) ∧
      (children.drop (childPosition children id + 1) = [] ∨ id ≤ child.lastId) := by
  rcases hfind : children.findIdx? (fun c => decide (id ≤ c.lastId)) with _ | i
  · have hposition : childPosition children id = children.length - 1 := by
      simp [childPosition, hfind]
    rw [hposition]
    have hall := List.findIdx?_eq_none_iff.mp hfind
    have hpos := List.length_pos_iff.mpr hne
    refine ⟨children[children.length - 1], List.getElem?_eq_getElem _, fun c hc => ?_, .inl ?_⟩
    · have := hall c (List.mem_of_mem_take hc)
      simpa using this
    · rw [List.drop_eq_nil_iff]
      omega
  · have hposition : childPosition children id = i := by simp [childPosition, hfind]
    rw [hposition]
    obtain ⟨hi, hp, hbefore⟩ := List.findIdx?_eq_some_iff_getElem.mp hfind
    refine ⟨children[i], List.getElem?_eq_getElem hi, fun c hc => ?_, .inr (by simpa using hp)⟩
    obtain ⟨j, hj, rfl⟩ := List.mem_take_iff_getElem.mp hc
    simpa using hbefore j (by omega)

/-- Where the way down to a leaf ends. -/
structure Reached (log : PartitionLog) (content : String → Option Body) (nextOffset id : Int)
    (out : List ProducerState × ProducerPath) (objects : List String)
    (all : List ProducerState) : Prop where
  spine : ∃ os before after,
    log.Spine content nextOffset 0 out.1.length out.2 os before after ∧
      before ++ out.1 ++ after = all ∧ (∀ p ∈ before, p.id < id) ∧ (∀ p ∈ after, id < p.id) ∧
      os.Nodup ∧ ∀ o ∈ os, o ∈ objects
  length_le : out.1.length ≤ pageEntries

theorem descend_drafts {id : Int} :
    ∀ {r : ProducerRef} {os pos : List String} {ss before after : List ProducerState}
      {path : ProducerPath}, self.Grove n.content nextOffset [r] os ss →
      self.Spine n.content nextOffset r.level r.count path pos before after →
      (∀ p ∈ before, p.id < id) → (∀ p ∈ after, id < p.id) → (pos ++ os).Nodup →
      self.Drafts (self.descend id nextOffset (some r) path) n (fun out n' => n' = n ∧
        self.Reached n.content nextOffset id out (pos ++ os) (before ++ ss ++ after)) F := by
  intro r
  -- on the level: the branches on the way become the path
  induction hl : r.level using Nat.strong_induction_on generalizing r with
  | _ level ih =>
    intro os pos ss before after path h hspine hbefore hafter hnodup
    rw [descend]
    -- the leaf is the end of the way
    cases h with
    | @leaf _ _ states rest objects page hnil =>
      cases hnil
      refine readProducerPage_bind_drafts page (drafting_pure ⟨rfl, ?_⟩)
      obtain ⟨hlen, -, -, -, -, hcount, hlevel⟩ := check_leaf page.check
      refine ⟨⟨pos, before, after, ?_, by simp, hbefore, hafter,
        (List.nodup_append.mp hnodup).1, fun o ho => List.mem_append_left _ ho⟩, hlen⟩
      rw [hcount, ← hlevel, hl]
      exact hspine
    -- the child that may hold the id is read next
    | @branch _ children _ _ objects page thick h =>
      refine readProducerPage_bind_drafts page ?_
      obtain ⟨hmin, hlen, hchildren, hspaced, -, -, hstates⟩ := check_branch page.check
      rw [List.append_nil] at h
      obtain ⟨child, hchild, hleft, hright⟩ := childPosition_spec children id
        (by rintro rfl; simp at hmin)
      dsimp only
      split
      · rename_i hnone
        exact absurd (hchild.symm.trans hnone) (by simp)
      · rename_i child' hchild'
        obtain rfl : child = child' := Option.some.inj (hchild.symm.trans hchild')
        have hmem := List.mem_of_getElem? hchild
        -- the children are divided at this child
        have hparts := split_at_position hchild
        rw [hparts] at h hspaced
        obtain ⟨osl, osr, ssl, ssr, rfl, rfl, hl₁, hr₁⟩ := h.split
        obtain ⟨os₁, os₂, ss₁, ss₂, rfl, rfl, h₁, h₂⟩ := hl₁.split
        obtain ⟨hspacedLeft, hspacedRight, hlt⟩ := List.pairwise_append.mp hspaced
        have hspacedTake := (List.pairwise_append.mp hspacedLeft).1
        have hlevel := hchildren child hmem
        -- the path grows by the branch and the position in it
        have hspine' : self.Spine n.content nextOffset child.level child.count
            ((children, childPosition children id) :: path) (os₁ ++ osr ++ pos)
            (before ++ ss₁) (ssr ++ after) := by
          refine .cons ⟨hmin, hlen⟩ (by simp [hchild]) (fun c hc => ?_) thick h₁ hr₁ ?_
          · have := (hchildren c hc).2
            omega
          · rw [hlevel.2, hstates, hl]
            exact hspine
        -- no object is counted twice on the way
        have hperm : (os₁ ++ osr ++ pos ++ os₂).Perm (pos ++ (os₁ ++ os₂ ++ osr)) :=
          List.perm_iff_count.mpr fun a => by
            simp only [List.count_append]
            omega
        have hsub : ∀ o, o ∈ os₁ ++ osr ++ pos ++ os₂ → o ∈ pos ++ r.object :: (os₁ ++ os₂ ++ osr) := by
          intro o ho
          rcases List.mem_append.mp (hperm.mem_iff.mp ho) with hmem | hmem
          · exact List.mem_append_left _ hmem
          · exact List.mem_append_right _ (List.mem_cons_of_mem _ hmem)
        refine drafting_mono (ih child.level (by omega) rfl h₂ hspine' ?_ ?_ ?_) ?_ fun _ h => h
        -- the ids before the child are smaller
        · intro p hp
          rcases List.mem_append.mp hp with hp | hp
          · exact hbefore p hp
          · obtain ⟨c, hc, -, hle⟩ := (h₁.sorted hspacedTake).2 p hp
            have := hleft c hc
            omega
        -- and those behind it are greater
        · intro p hp
          rcases List.mem_append.mp hp with hp | hp
          · obtain ⟨c, hc, hge, -⟩ := (hr₁.sorted hspacedRight).2 p hp
            rcases hright with hnil | hle
            · rw [hnil] at hc
              simp at hc
            · have := hlt child (by simp) c hc
              omega
          · exact hafter p hp
        -- the objects are those of before, in another order
        · refine hperm.nodup_iff.mpr (hnodup.sublist ?_)
          exact (List.sublist_cons_self _ _).append_left pos
        · rintro out n' - ⟨rfl, ⟨os', before', after', hs, heq, hb, ha, hn, ho⟩, hlength⟩
          refine ⟨rfl, ⟨os', before', after', hs, ?_, hb, ha, hn, fun o h => hsub o (ho o h)⟩, hlength⟩
          rw [heq]
          simp

/-! ## Pages to be written -/

/-- A page of this level that can be written: its content is there, sorted elsewhere. -/
inductive Fills (log : PartitionLog) (content : String → Option Body) (nextOffset : Int) :
    Nat → ProducerPage → List String → List ProducerState → Prop where
  | leaf {states : List ProducerState} (nonempty : states ≠ [])
      (length : states.length ≤ pageEntries) (valid : ∀ p ∈ states, ValidState nextOffset p) :
      Fills log content nextOffset 0 (.leaf states) [] states
  | branch {level : Nat} {children : List ProducerRef} {os : List String}
      {ss : List ProducerState} (length : 2 ≤ children.length ∧ children.length ≤ pageEntries)
      (levels : ∀ c ∈ children, c.level = level) (thick : Thick children)
      (grove : log.Grove content nextOffset children os ss) :
      Fills log content nextOffset (level + 1) (.branch children) os ss

/-- The ids are those of an `i64`. -/
def IdsFit (ss : List ProducerState) : Prop := ∀ p ∈ ss, p.id ≤ i64Max

theorem count_of_thick {level : Nat} {children : List ProducerRef}
    (levels : ∀ c ∈ children, c.level = level) (thick : Thick children) :
    children.length * fill level ≤ statesBelow children := by
  induction children with
  | nil => simp
  | cons c cs ih =>
    have hc := thick c (by simp)
    rw [levels c (by simp)] at hc
    have := ih (fun d hd => levels d (by simp [hd])) fun d hd => thick d (by simp [hd])
    rw [statesBelow_cons, List.length_cons, Nat.succ_mul]
    omega

theorem statesBelow_le {level : Nat} {children : List ProducerRef}
    (levels : ∀ c ∈ children, c.level = level)
    (valid : ∀ c ∈ children, self.validateProducerRef c = .ok ()) :
    statesBelow children ≤ children.length * levelCapacity level := by
  induction children with
  | nil => simp
  | cons c cs ih =>
    have hc := (validateProducerRef_eq_ok.mp (valid c (by simp))).2.2.2.2.2.2.1
    rw [levels c (by simp)] at hc
    have := ih (fun d hd => levels d (by simp [hd])) fun d hd => valid d (by simp [hd])
    rw [statesBelow_cons, List.length_cons, Nat.succ_mul]
    omega

namespace Fills

variable {level : Nat} {page : ProducerPage} {os : List String} {ss : List ProducerState}

theorem content_ne_none (h : self.Fills content nextOffset level page os ss) {o : String}
    (ho : o ∈ os) : content o ≠ none := by
  cases h with
  | leaf _ _ _ => simp at ho
  | branch _ _ _ grove => exact grove.content_ne_none ho

theorem grows {n' : Notes Body} (h : self.Fills n.content nextOffset level page os ss)
    (hn : n.Grows n') : self.Fills n'.content nextOffset level page os ss := by
  cases h with
  | leaf nonempty length valid => exact .leaf nonempty length valid
  | branch length levels thick grove => exact .branch length levels thick (grove.grows hn)

theorem valid (h : self.Fills content nextOffset level page os ss) :
    ∀ p ∈ ss, ValidState nextOffset p := by
  cases h with
  | leaf _ _ valid => exact valid
  | branch _ _ _ grove => exact grove.valid

theorem nonempty (h : self.Fills content nextOffset level page os ss) : ss ≠ [] := by
  cases h with
  | leaf nonempty _ _ => exact nonempty
  | @branch level children _ _ length levels thick grove =>
    rintro rfl
    have hcount := grove.count
    have hthick := count_of_thick levels thick
    have hfill : 0 < fill level := Nat.pow_pos (by decide)
    have := Nat.mul_le_mul length.1 (le_refl (fill level))
    simp only [List.length_nil] at hcount
    omega

/-- The bounds of such a page, and why its reference is valid. -/
theorem bounds (h : self.Fills content nextOffset level page os ss) (hsorted : Sorted ss)
    (hids : IdsFit ss) : ∃ firstId lastId,
      self.producerPageBounds nextOffset page = .ok (firstId, lastId, ss.length, level) ∧
        0 ≤ firstId ∧ firstId ≤ lastId ∧ (ss.length : Int) ≤ lastId - firstId + 1 ∧
        level ≤ maxProducerLevel ∧ ss.length ≤ levelCapacity level := by
  obtain ⟨first, rest, hss⟩ := List.exists_cons_of_ne_nil h.nonempty
  have hfirst : ss.head? = some first := by rw [hss]; rfl
  have hlast : ss.getLast? = some (ss.getLast h.nonempty) := List.getLast?_eq_some_getLast _
  generalize ss.getLast h.nonempty = last at hlast
  -- the first and the last state have the least and the greatest id
  have hfirstMem : first ∈ ss := List.mem_of_mem_head? hfirst
  have hlastMem : last ∈ ss := List.mem_of_getLast? hlast
  have hwidth := hsorted.length_le hfirst hlast
  have hpos : 0 < ss.length := List.length_pos_iff.mpr h.nonempty
  have hfirstId := (h.valid first hfirstMem).id_nonneg
  have hlastId := hids last hlastMem
  have hsmall : ss.length ≤ 2 ^ 63 := by
    unfold i64Max at hlastId
    omega
  -- the bounds, and the limits on level and count
  refine ⟨first.id, last.id, ?_, hfirstId, by omega, hwidth, ?_, ?_⟩
  · cases h with
    | leaf _ length valid =>
      exact producerPageBounds_leaf.mpr ⟨length, valid, hsorted, by simp [hfirst], by simp [hlast],
        rfl, rfl⟩
    | branch length levels thick grove =>
      refine producerPageBounds_branch.mpr ⟨length.1, length.2, fun c hc =>
        ⟨grove.roots_valid c hc, by rw [levels c hc]⟩,
        rangesIncrease_of_spaced (grove.spaced hsorted), ?_, ?_, grove.count.symm, ?_⟩
      · rw [← grove.ends.1, hfirst, Option.map_some]
      · rw [← grove.ends.2, hlast, Option.map_some]
      · exact hsmall.trans (by decide)
  -- pages are at least half full, so that the level is bounded by the number of states
  · cases h with
    | leaf _ _ _ => exact Nat.zero_le _
    | @branch level children _ _ length levels thick grove =>
      by_contra hlevel
      have hcount := (count_of_thick levels thick).trans grove.count.ge
      have hfill : 32 ^ 13 ≤ fill level :=
        Nat.pow_le_pow_right (by decide) (by unfold maxProducerLevel at hlevel; omega)
      have := Nat.mul_le_mul length.1 hfill
      have : 2 * 32 ^ 13 ≤ 2 ^ 63 := by omega
      exact absurd this (by decide)
  -- a level holds 64 times as much as the one below
  · cases h with
    | leaf _ length _ => exact length
    | @branch level children _ _ length levels thick grove =>
      rcases Nat.lt_or_ge (level + 1) maxIndexLevel with hlt | hge
      · rw [levelCapacity_succ hlt, grove.count]
        exact (statesBelow_le levels grove.roots_valid).trans (Nat.mul_le_mul_right _ length.2)
      · rw [levelCapacity_of_ge hge]
        exact hsmall.trans (by decide)

end Fills

/-- What writing a producer page leaves behind. -/
structure WroteProducers (log : PartitionLog) (n n' : Notes Body) (nextOffset : Int)
    (r : ProducerRef) (page : ProducerPage) : Prop
    extends log.Created n n' r.object (.producerPage page) where
  stored : log.StoredProducerPage n'.content nextOffset r page

theorem writeProducerPage_drafts (htopic : validateTopic self.topic = .ok ())
    (hF : ¬ ProducerPagesFit self → ∀ x, F x) (hnext : nextOffset ≤ i64Max) {level : Nat}
    {page : ProducerPage} {os : List String} {ss : List ProducerState}
    (h : self.Fills n.content nextOffset level page os ss) (hsorted : Sorted ss)
    (hids : IdsFit ss) :
    self.Drafts (self.writeProducerPage page nextOffset) n (fun r n' =>
      self.WroteProducers n n' nextOffset r page ∧ r.level = level ∧ r.count = ss.length ∧
        self.Grove n'.content nextOffset [r] (r.object :: os) ss) F := by
  -- the bounds of the page are those of its states
  obtain ⟨firstId, lastId, hbounds, hfirst, hle, hwidth, hlevel, hcapacity⟩ := h.bounds hsorted hids
  have hpos : 0 < ss.length := List.length_pos_iff.mpr h.nonempty
  unfold writeProducerPage
  refine drafts_check_bind_ok hbounds (drafts_newV4 fun id hid => ?_)
  dsimp only
  refine drafts_check_bind (fun _ hvalid => ?_) fun x hx => hF ?_ x
  · refine drafts_create (.inr (self.producerPath_mem id)) (hid _ (self.producerPath_mem id))
      (drafting_pure ?_)
    have hnamed : self.Named (self.producerPath id) := ⟨id, self.producerPath_mem id⟩
    have hcreated : self.Created n ((n.draw (self.names id)).write (self.producerPath id)
        (.producerPage page)) (self.producerPath id) (.producerPage page) :=
      ⟨rfl, hid _ (self.producerPath_mem id), .inr (self.producerPath_mem id), hnamed⟩
    have hstored : self.StoredProducerPage ((n.draw (self.names id)).write (self.producerPath id)
        (.producerPage page)).content nextOffset ⟨self.producerPath id, firstId, lastId, ss.length,
          level, self.crates.size (.producerPage page),
          self.crates.sha256Hex (.producerPage page)⟩ page :=
      ⟨by simp, rfl, rfl, hvalid, checkProducerPage_eq_ok.mpr hbounds,
        self.pathFrom_named htopic hnamed⟩
    refine ⟨⟨hcreated, hstored⟩, rfl, rfl, ?_⟩
    -- the page stands for what it was written from
    cases h with
    | leaf _ _ _ =>
      have := Grove.leaf hstored .nil
      rwa [List.append_nil] at this
    | branch _ _ thick grove =>
      refine .branch hstored thick ?_
      rw [List.append_nil]
      exact grove.mono fun o ho => hcreated.mono (grove.content_ne_none ho)
  · -- only the length of the document can be at fault
    intro fits
    have hfits : self.crates.size (.producerPage page) ≤ maxManifestBytes := by
      cases h with
      | leaf _ length valid =>
        exact fits.producerLeaf ss length fun p hp => (valid p hp).mono hnext
      | branch length _ _ grove => exact fits.producerBranch _ length.2 grove.roots_valid
    have hvalid : self.validateProducerRef ⟨self.producerPath id, firstId, lastId, ss.length, level,
        self.crates.size (.producerPage page), self.crates.sha256Hex (.producerPage page)⟩ = .ok () :=
      validateProducerRef_eq_ok.mpr ⟨self.crates.namesUuid_self _ _ id, hfirst, hle, hpos, hwidth,
        hlevel, hcapacity, self.crates.jsonLength_pos _, hfits, self.crates.sha256Hex_valid _⟩
    exact absurd (hvalid.symm.trans hx) (by simp)

/-! ## The way up -/

/-- Pages of one level, each with at least `m` states. -/
inductive FillsAll (log : PartitionLog) (content : String → Option Body) (nextOffset : Int)
    (level m : Nat) : List ProducerPage → List String → List ProducerState → Prop where
  | nil : FillsAll log content nextOffset level m [] [] []
  | cons {page : ProducerPage} {pages : List ProducerPage} {os rest : List String}
      {ss states : List ProducerState} (fills : log.Fills content nextOffset level page os ss)
      (enough : m ≤ ss.length) (h : FillsAll log content nextOffset level m pages rest states) :
      FillsAll log content nextOffset level m (page :: pages) (os ++ rest) (ss ++ states)

theorem FillsAll.grows {level m : Nat} {pages : List ProducerPage} {os : List String}
    {ss : List ProducerState} {n' : Notes Body}
    (h : self.FillsAll n.content nextOffset level m pages os ss) (hn : n.Grows n') :
    self.FillsAll n'.content nextOffset level m pages os ss := by
  induction h with
  | nil => exact .nil
  | cons page enough _ ih => exact .cons (page.grows hn) enough ih

theorem FillsAll.content_ne_none {level m : Nat} {pages : List ProducerPage} {os : List String}
    {ss : List ProducerState} (h : self.FillsAll content nextOffset level m pages os ss)
    {o : String} (ho : o ∈ os) : content o ≠ none := by
  induction h with
  | nil => simp at ho
  | cons page _ _ ih =>
    rcases List.mem_append.mp ho with ho | ho
    · exact page.content_ne_none ho
    · exact ih ho

/-- What writing the pages of one level leaves behind. -/
structure Shelved (log : PartitionLog) (n n' : Notes Body) (nextOffset : Int) (level m : Nat)
    (os : List String) (refs : List ProducerRef) (os' : List String)
    (ss : List ProducerState) : Prop where
  grove : log.Grove n'.content nextOffset refs os' ss
  levels : ∀ r ∈ refs, r.level = level
  enough : ∀ r ∈ refs, m ≤ r.count
  nodup : os'.Nodup
  objects : ∀ o ∈ os', o ∈ os ∨ n.content o = none ∧ log.Named o

theorem writeProducerPages_drafts (htopic : validateTopic self.topic = .ok ())
    (hF : ¬ ProducerPagesFit self → ∀ x, F x) (hnext : nextOffset ≤ i64Max) {level m : Nat} :
    ∀ {pages : List ProducerPage} {os : List String} {ss : List ProducerState} {n : Notes Body},
      self.FillsAll n.content nextOffset level m pages os ss → Sorted ss → IdsFit ss → os.Nodup →
      self.Drafts (self.writeProducerPages nextOffset pages) n (fun refs n' => ∃ os',
        refs.length = pages.length ∧ self.Shelved n n' nextOffset level m os refs os' ss) F := by
  intro pages
  -- over the pages, each of which gets a new name
  induction pages with
  | nil =>
    intro os ss n h _ _ _
    cases h
    exact drafting_pure ⟨[], rfl, .nil, by simp, by simp, .nil, by simp⟩
  | cons page pages ih =>
    intro os ss n h hsorted hids hnodup
    cases h with
    | @cons _ _ os rest ss states hpage enough h =>
      obtain ⟨hsorted₁, hsorted₂, -⟩ := sorted_append.mp hsorted
      obtain ⟨hnodup₁, hnodup₂, hdisjoint⟩ := List.nodup_append.mp hnodup
      -- the first page is written
      refine drafting_bind (drafting_mono (writeProducerPage_drafts htopic hF hnext hpage hsorted₁
        fun p hp => hids p (by simp [hp])) (fun r n₁ hn₁ hr => And.intro hn₁ hr) fun _ => id) ?_
      rintro r n₁ - ⟨hn₁, hwrote, hlevel, hcount, hgrove⟩
      -- the others are written after it
      refine drafting_bind (drafting_mono (ih (h.grows hn₁) hsorted₂
        (fun p hp => hids p (by simp [hp])) hnodup₂) (fun r n₂ hn₂ hr => And.intro hn₂ hr)
        fun _ => id) ?_
      rintro refs n₂ - ⟨hn₂, os', hlength, hshelved⟩
      refine drafting_pure ⟨(r.object :: os) ++ os', by simp [hlength],
        (hgrove.grows hn₂).append hshelved.grove, ?_, ?_, ?_, ?_⟩
      · exact List.forall_mem_cons.mpr ⟨hlevel, hshelved.levels⟩
      · exact List.forall_mem_cons.mpr ⟨by omega, hshelved.enough⟩
      -- the new pages and what is below them have different names
      · refine List.nodup_append.mpr ⟨List.nodup_cons.mpr
          ⟨fun ho => hpage.content_ne_none ho hwrote.fresh, hnodup₁⟩, hshelved.nodup, ?_⟩
        rintro o ho o' ho' rfl
        rcases hshelved.objects o ho' with hmem | ⟨hnone, -⟩
        · rcases List.mem_cons.mp ho with rfl | ho
          · exact h.content_ne_none hmem hwrote.fresh
          · exact hdisjoint o ho o hmem rfl
        · exact hgrove.content_ne_none ho hnone
      -- an object is a new page, or was below the old ones
      · intro o ho
        rcases List.mem_append.mp ho with ho | ho
        · rcases List.mem_cons.mp ho with rfl | ho
          · exact .inr ⟨hwrote.fresh, hwrote.named⟩
          · exact .inl (by simp [ho])
        · rcases hshelved.objects o ho with hmem | ⟨hnone, hnamed⟩
          · exact .inl (by simp [hmem])
          · exact .inr ⟨Grows.none hn₁ hnone, hnamed⟩

theorem splitEntries_cases {α : Type} (entries : List α) :
    entries.length ≤ pageEntries ∧ splitEntries entries = [entries] ∨
      pageEntries < entries.length ∧ ∃ left right, entries = left ++ right ∧
        splitEntries entries = [left, right] ∧ left.length = entries.length / 2 ∧
        right.length = entries.length - entries.length / 2 := by
  unfold splitEntries
  split
  · rename_i hlarge
    refine .inr ⟨hlarge, entries.take (entries.length / 2), entries.drop (entries.length / 2),
      (List.take_append_drop _ _).symm, rfl, ?_, by simp⟩
    rw [List.length_take]
    omega
  · rename_i hsmall
    exact .inl ⟨by omega, rfl⟩

/-- The pages over a row of references, split when there are too many. -/
theorem fillsAll_branch {level : Nat} {children : List ProducerRef} {os : List String}
    {ss : List ProducerState} (hgrove : self.Grove content nextOffset children os ss)
    (hlength : 2 ≤ children.length ∧ children.length ≤ pageEntries + 1)
    (levels : ∀ c ∈ children, c.level = level) (thick : Thick children) :
    ∃ m, self.FillsAll content nextOffset (level + 1) m
        ((splitEntries children).map .branch) os ss ∧
      (fill (level + 1) ≤ m ∨ (splitEntries children).length = 1 ∧ m = ss.length) ∧
      ((splitEntries children).length = 1 ∨ (splitEntries children).length = 2) := by
  rcases splitEntries_cases children with ⟨hsmall, heq⟩ |
    ⟨hlarge, left, right, rfl, heq, hleft, hright⟩
  -- one page has room for all of them
  · rw [heq]
    refine ⟨ss.length, ?_, .inr ⟨rfl, rfl⟩, .inl rfl⟩
    have := FillsAll.cons (Fills.branch ⟨hlength.1, hsmall⟩ levels thick hgrove) le_rfl
      .nil
    simpa using this
  -- 65 entries are split into 32 and 33, and each of them is full enough
  · rw [heq]
    obtain ⟨os₁, os₂, ss₁, ss₂, rfl, rfl, h₁, h₂⟩ := hgrove.split
    have hlen : left.length = 32 ∧ right.length = 33 := by
      have : pageEntries = 64 := rfl
      omega
    have levels₁ : ∀ c ∈ left, c.level = level := fun c hc => levels c (by simp [hc])
    have levels₂ : ∀ c ∈ right, c.level = level := fun c hc => levels c (by simp [hc])
    have thick₁ : Thick left := fun c hc => thick c (by simp [hc])
    have thick₂ : Thick right := fun c hc => thick c (by simp [hc])
    have hfill : fill (level + 1) = 32 * fill level := by
      unfold fill
      rw [pow_succ, Nat.mul_comm]
    have hcount₁ := count_of_thick levels₁ thick₁
    have hcount₂ := count_of_thick levels₂ thick₂
    rw [hlen.1] at hcount₁
    rw [hlen.2] at hcount₂
    refine ⟨fill (level + 1), ?_, .inl le_rfl, .inr rfl⟩
    have := FillsAll.cons (Fills.branch ⟨by omega, by rw [hlen.1]; decide⟩ levels₁ thick₁ h₁)
      (m := fill (level + 1)) (by rw [h₁.count]; omega)
      (.cons (Fills.branch ⟨by omega, by rw [hlen.2]; decide⟩ levels₂ thick₂ h₂)
        (by rw [h₂.count]; omega) .nil)
    simpa using this

/-- A directory tree that was just written. -/
def Regrown (log : PartitionLog) (n n' : Notes Body) (nextOffset : Int) (os : List String)
    (r : ProducerRef) (ss : List ProducerState) : Prop :=
  ∃ os', log.Grove n'.content nextOffset [r] os' ss ∧ os'.Nodup ∧
    ∀ o ∈ os', o ∈ os ∨ n.content o = none ∧ log.Named o

/-- The new pages of a level are at least half full when what they hold is enough. -/
theorem Shelved.thick {n' : Notes Body} {level m : Nat} {os os' : List String}
    {refs : List ProducerRef} {ss : List ProducerState}
    (h : self.Shelved n n' nextOffset level m os refs os' ss) (hm : fill level ≤ m) :
    Thick refs := by
  intro c hc
  rw [h.levels c hc]
  exact hm.trans (h.enough c hc)

/-- The new pages are apart from all that stays: below the branch on either side, and on the path. -/
theorem Shelved.apart {n' : Notes Body} {level m : Nat} {os os' pos os₁ os₂ : List String}
    {refs : List ProducerRef} {ss : List ProducerState}
    (h : self.Shelved n n' nextOffset level m os refs os' ss)
    (hstay : ∀ o ∈ os₁ ++ os₂ ++ pos, n.content o ≠ none)
    (hnodup : (os₁ ++ os₂ ++ pos ++ os).Nodup) : (pos ++ (os₁ ++ os' ++ os₂)).Nodup := by
  have hperm : (pos ++ (os₁ ++ os' ++ os₂)).Perm (os₁ ++ os₂ ++ pos ++ os') :=
    List.perm_iff_count.mpr fun a => by
      simp only [List.count_append]
      omega
  refine hperm.nodup_iff.mpr (List.nodup_append.mpr
    ⟨(List.nodup_append.mp hnodup).1, h.nodup, ?_⟩)
  rintro o ho o' ho' rfl
  rcases h.objects o ho' with hos | ⟨hnone, -⟩
  · exact (List.nodup_append.mp hnodup).2.2 o ho o hos rfl
  · exact hstay o ho hnone

/-- What is below the copied branch was there before, or is new. -/
theorem Shelved.objects_between {n' : Notes Body} {level m : Nat}
    {os os' pos os₁ os₂ : List String} {refs : List ProducerRef} {ss : List ProducerState}
    (h : self.Shelved n n' nextOffset level m os refs os' ss) :
    ∀ o ∈ os₁ ++ os' ++ os₂, o ∈ os₁ ++ os₂ ++ pos ++ os ∨ n.content o = none ∧ self.Named o := by
  intro o ho
  rcases List.mem_append.mp ho with ho | ho
  · rcases List.mem_append.mp ho with ho | ho
    · exact .inl (by simp [ho])
    · exact (h.objects o ho).imp_left (List.mem_append_right _)
  · exact .inl (by simp [ho])

/-- What holds of the children and of the new pages holds of the children of the copied branch, in
which the new pages stand in place of one child. -/
theorem forall_mem_replaced {P : ProducerRef → Prop} {children refs : List ProducerRef}
    {position : Nat} (hold : ∀ c ∈ children, P c) (hnew : ∀ c ∈ refs, P c) :
    ∀ c ∈ children.take position ++ refs ++ children.drop (position + 1), P c := by
  intro c hc
  rcases List.mem_append.mp hc with hc | hc
  · rcases List.mem_append.mp hc with hc | hc
    · exact hold c (List.mem_of_mem_take hc)
    · exact hnew c hc
  · exact hold c (List.mem_of_mem_drop hc)

/-- At the top the pages are the new root, or get one. -/
theorem ascend_nil_drafts (htopic : validateTopic self.topic = .ok ())
    (hF : ¬ ProducerPagesFit self → ∀ x, F x) (hnext : nextOffset ≤ i64Max) {level m : Nat}
    {os : List String} {pages : List ProducerPage} {ss : List ProducerState}
    (hpages : self.FillsAll n.content nextOffset level m pages os ss)
    (htwo : pages.length = 1 ∨ pages.length = 2) (henough : fill level ≤ m ∨ pages.length = 1)
    (hsorted : Sorted ss) (hids : IdsFit ss) (hnodup : os.Nodup) :
    self.Drafts (self.ascend nextOffset [] pages) n
      (fun r n' => self.Regrown n n' nextOffset os r ss) F := by
  unfold ascend
  refine drafting_bind (drafting_mono (writeProducerPages_drafts htopic hF hnext hpages hsorted
    hids hnodup) (fun r n₁ hn₁ hr => And.intro hn₁ hr) fun _ => id) ?_
  rintro refs n₁ - ⟨hn₁, os', hlength, hshelved⟩
  split
  · exact drafting_pure ⟨os', hshelved.grove, hshelved.nodup, hshelved.objects⟩
  -- two pages get a root of their own
  · rename_i hmany
    have hpair : pages.length = 2 := by
      rcases htwo with h | h
      · obtain ⟨r, rfl⟩ := List.length_eq_one_iff.mp (hlength.trans h)
        exact absurd rfl (hmany r)
      · exact h
    have hrefs : refs.length = 2 := hlength.trans hpair
    have hthick := hshelved.thick (henough.resolve_right (by omega))
    have hfills := Fills.branch ⟨by omega, by rw [hrefs]; decide⟩ hshelved.levels hthick
      hshelved.grove
    refine drafting_mono (writeProducerPage_drafts htopic hF hnext hfills hsorted hids) ?_
      fun _ => id
    rintro r n' - ⟨hwrote, -, -, hgrove⟩
    refine ⟨r.object :: os', hgrove, List.nodup_cons.mpr
      ⟨fun ho => hshelved.grove.content_ne_none ho hwrote.fresh, hshelved.nodup⟩, fun o ho => ?_⟩
    rcases List.mem_cons.mp ho with rfl | ho
    · exact .inr ⟨Grows.none hn₁ hwrote.fresh, hwrote.named⟩
    · exact hshelved.objects o ho

/-- The pages replace what stood at the end of the path; all the way up to a new root. -/
theorem ascend_drafts (htopic : validateTopic self.topic = .ok ())
    (hF : ¬ ProducerPagesFit self → ∀ x, F x) (hnext : nextOffset ≤ i64Max) :
    ∀ {path : ProducerPath} {level k m : Nat} {pos os : List String} {pages : List ProducerPage}
      {before mid after : List ProducerState} {n : Notes Body},
      self.Spine n.content nextOffset level k path pos before after →
      self.FillsAll n.content nextOffset level m pages os mid →
      (pages.length = 1 ∨ pages.length = 2) → (fill level ≤ m ∨ path = [] ∧ pages.length = 1) →
      k ≤ mid.length → Sorted (before ++ mid ++ after) → IdsFit (before ++ mid ++ after) →
      (pos ++ os).Nodup →
      self.Drafts (self.ascend nextOffset path pages) n (fun r n' =>
        self.Regrown n n' nextOffset (pos ++ os) r (before ++ mid ++ after)) F := by
  intro path
  -- over the path, from the changed page up to the root
  induction path with
  -- the top is reached
  | nil =>
    intro level k m pos os pages before mid after n hspine hpages htwo henough hk hsorted hids hnodup
    cases hspine
    simp only [List.nil_append, List.append_nil] at hsorted hids hnodup ⊢
    exact ascend_nil_drafts htopic hF hnext hpages htwo (henough.imp_right (·.2)) hsorted hids hnodup
  -- a branch on the way is copied with the new pages in it
  | cons step path ih =>
    intro level k m pos os pages before mid after n hspine hpages htwo henough hk hsorted hids hnodup
    have hm : fill level ≤ m := henough.resolve_right fun h => by simp at h
    cases hspine with
    | @cons _ _ position children _ os₁ os₂ pos ss₁ ss₂ before after length here levels thick left
        right rest =>
      have hassoc : before ++ ss₁ ++ mid ++ (ss₂ ++ after) =
          before ++ (ss₁ ++ mid ++ ss₂) ++ after := by simp
      rw [hassoc] at hsorted hids ⊢
      -- the states below the branch are in order
      have hsortedMid : Sorted mid := by
        have := (sorted_append.mp (sorted_append.mp hsorted).1).2.1
        exact (sorted_append.mp (sorted_append.mp this).1).2.1
      have hidsMid : IdsFit mid := fun p hp => hids p (by simp [hp])
      unfold ascend
      -- the pages below it are written first
      refine drafting_bind (drafting_mono (writeProducerPages_drafts htopic hF hnext hpages
        hsortedMid hidsMid (List.nodup_append.mp hnodup).2.1)
        (fun r n₁ hn₁ hr => And.intro hn₁ hr) fun _ => id) ?_
      rintro refs n₁ - ⟨hn₁, os', hlength, hshelved⟩
      obtain ⟨c, hc, rfl⟩ := Option.map_eq_some_iff.mp here
      have hparts := split_at_position hc
      have hposition := (List.getElem?_eq_some_iff.mp hc).1
      have hgrove := ((left.grows hn₁).append hshelved.grove).append (right.grows hn₁)
      -- the copied branch is still a branch, with one or two pages in place of one
      have hsize : (children.take position ++ refs ++ children.drop (position + 1)).length =
          children.length - 1 + refs.length := by
        simp only [List.length_append, List.length_take, List.length_drop]
        omega
      have hlevels : ∀ d ∈ children.take position ++ refs ++ children.drop (position + 1),
          d.level = level := forall_mem_replaced levels hshelved.levels
      have hthick : Thick (children.take position ++ refs ++ children.drop (position + 1)) :=
        forall_mem_replaced thick (hshelved.thick hm)
      -- no state is lost
      have hstates : statesBelow children ≤ (ss₁ ++ mid ++ ss₂).length := by
        have hsum := congrArg statesBelow hparts
        simp only [statesBelow_append, statesBelow_cons, statesBelow_nil, add_zero] at hsum
        rw [hsum, List.length_append, List.length_append, left.count, right.count]
        omega
      -- the copied branch may have to be split as well
      obtain ⟨m', hfills, hm', htwo'⟩ := fillsAll_branch hgrove
        ⟨by rw [hsize]; omega, by rw [hsize]; omega⟩ hlevels hthick
      -- the new pages are apart from what stays
      have hstay : ∀ o ∈ os₁ ++ os₂ ++ pos, n.content o ≠ none := by
        intro o ho
        rcases List.mem_append.mp ho with ho | ho
        · rcases List.mem_append.mp ho with ho | ho
          · exact left.content_ne_none ho
          · exact right.content_ne_none ho
        · exact rest.content_ne_none ho
      -- the next branch on the way
      refine drafting_mono (ih (rest.grows hn₁) hfills (by simpa using htwo') ?_ hstates hsorted hids
        (hshelved.apart hstay hnodup)) ?_ fun _ => id
      · rcases hm' with h | ⟨h, rfl⟩
        · exact .inl h
        · by_cases hpath : path = []
          · exact .inr ⟨hpath, by simpa using h⟩
          · exact .inl ((rest.fill_le hpath).trans hstates)
      · rintro r n' - ⟨os'', hgrove', hnodup'', hobjects'⟩
        refine ⟨os'', hgrove', hnodup'', fun o ho => ?_⟩
        rcases hobjects' o ho with hmem | ⟨hnone, hnamed⟩
        · rcases List.mem_append.mp hmem with hmem | hmem
          · exact .inl (by simp [hmem])
          · exact hshelved.objects_between o hmem
        · exact .inr ⟨Grows.none hn₁ hnone, hnamed⟩

/-! ## Updates -/

variable (self content nextOffset) in
/-- The leaves over a list of states, split when there are too many. -/
theorem fillsAll_leaf {states : List ProducerState} (hne : states ≠ [])
    (hlength : states.length ≤ pageEntries + 1) (valid : ∀ p ∈ states, ValidState nextOffset p) :
    ∃ m, self.FillsAll content nextOffset 0 m ((splitEntries states).map .leaf) [] states ∧
      (fill 0 ≤ m ∨ (splitEntries states).length = 1 ∧ m = states.length) ∧
      ((splitEntries states).length = 1 ∨ (splitEntries states).length = 2) := by
  rcases splitEntries_cases states with ⟨hsmall, heq⟩ |
    ⟨hlarge, left, right, rfl, heq, hleft, hright⟩
  · rw [heq]
    refine ⟨states.length, ?_, .inr ⟨rfl, rfl⟩, .inl rfl⟩
    have hleaf : self.Fills content nextOffset 0 (.leaf states) [] states :=
      .leaf hne hsmall valid
    simpa using FillsAll.cons hleaf le_rfl .nil
  · rw [heq]
    have hlen : left.length = 32 ∧ right.length = 33 := by
      have : pageEntries = 64 := rfl
      omega
    have hfill : fill 0 = 32 := rfl
    have hleaf₁ : self.Fills content nextOffset 0 (.leaf left) [] left :=
      .leaf (List.length_pos_iff.mp (by omega)) (by rw [hlen.1]; decide)
        fun p hp => valid p (by simp [hp])
    have hleaf₂ : self.Fills content nextOffset 0 (.leaf right) [] right :=
      .leaf (List.length_pos_iff.mp (by omega)) (by rw [hlen.2]; decide)
        fun p hp => valid p (by simp [hp])
    refine ⟨32, ?_, .inl hfill.le, .inr rfl⟩
    simpa using FillsAll.cons hleaf₁ hlen.1.ge (.cons hleaf₂ (by omega) .nil)

theorem Directory.sorted {root : Option ProducerRef} {os : List String} {ss : List ProducerState}
    (h : self.Directory content nextOffset root os ss) : Sorted ss := by
  cases root with
  | none => cases h; exact .nil
  | some r => exact (Grove.single h).1

theorem updateProducer_drafts (htopic : validateTopic self.topic = .ok ())
    (hF : ¬ ProducerPagesFit self → ∀ x, F x) (hnext : nextOffset ≤ i64Max) {root : Option ProducerRef}
    {os : List String} {ss : List ProducerState} {state : ProducerState}
    (h : self.Directory n.content nextOffset root os ss) (hnodup : os.Nodup)
    (hvalid : ValidState nextOffset state) (hids : IdsFit ss) (hid : state.id ≤ i64Max) :
    self.Drafts (self.updateProducer root state nextOffset) n (fun r n' =>
      self.Regrown n n' nextOffset os r (upsert state ss)) F := by
  -- where the way down ends, the leaf is changed and the way up does the rest
  have hup : ∀ {out : List ProducerState × ProducerPath},
      self.Reached n.content nextOffset state.id out os ss → (∀ p ∈ ss, ValidState nextOffset p) →
      self.Drafts (self.ascend nextOffset out.2 ((splitEntries (upsert state out.1)).map .leaf)) n
        (fun r n' => self.Regrown n n' nextOffset os r (upsert state ss)) F := by
    rintro ⟨producers, path⟩ ⟨⟨pos, before, after, hspine, heq, hbefore, hafter, hnodupPos, hsub⟩,
      hlength⟩ hvalidAll
    simp only at hspine heq hlength ⊢
    have hlen := length_upsert state producers
    obtain ⟨m, hfills, hm, htwo⟩ := fillsAll_leaf self nextOffset n.content
      (List.ne_nil_of_mem (mem_upsert_self state producers)) (by omega) fun p hp => by
        rcases mem_upsert hp with rfl | hp
        · exact hvalid
        · exact hvalidAll p (by rw [← heq]; simp [hp])
    have hupsert : before ++ upsert state producers ++ after = upsert state ss := by
      rw [← heq, upsert_append_right (fun p hp => hafter p hp), upsert_append_left hbefore]
    have hids' : IdsFit (upsert state ss) := by
      intro p hp
      rcases mem_upsert hp with rfl | hp
      · exact hid
      · exact hids p hp
    refine drafting_mono (ascend_drafts htopic hF hnext hspine hfills (by simpa using htwo) ?_
      hlen.1 ?_ ?_ (by simpa using hnodupPos)) ?_ fun _ => id
    · rcases hm with hm | ⟨hone, rfl⟩
      · exact .inl hm
      · by_cases hpath : path = []
        · exact .inr ⟨hpath, by simpa using hone⟩
        · exact .inl ((hspine.fill_le hpath).trans hlen.1)
    · rw [hupsert]
      exact sorted_upsert state h.sorted
    · rw [hupsert]
      exact hids'
    · rintro r n' - ⟨os', hgrove, hnodup', hobjects⟩
      rw [hupsert] at hgrove
      refine ⟨os', hgrove, hnodup', fun o ho => (hobjects o ho).imp_left fun hmem => hsub o ?_⟩
      simpa using hmem
  unfold updateProducer
  cases root with
  | none =>
    cases h
    rw [descend]
    have hreached : self.Reached n.content nextOffset state.id ([], []) [] [] :=
      ⟨⟨[], [], [], .nil, rfl, by simp, by simp, .nil, by simp⟩, Nat.zero_le _⟩
    exact hup hreached (by simp)
  | some r =>
    have hgrove : self.Grove n.content nextOffset [r] os ss := h
    have hroot : self.Spine n.content nextOffset r.level r.count [] [] [] [] := .nil
    refine drafting_bind (descend_drafts hgrove hroot (by simp) (by simp)
      (by simpa using hnodup)) ?_
    rintro out n' - ⟨rfl, hreached⟩
    exact hup (by simpa using hreached) hgrove.valid

/-- The states of a request are entered one after the other. -/
theorem updateProducers_drafts (htopic : validateTopic self.topic = .ok ())
    (hF : ¬ ProducerPagesFit self → ∀ x, F x) (hnext : nextOffset ≤ i64Max) :
    ∀ {states : List ProducerState} {root : Option ProducerRef} {os : List String}
      {ss : List ProducerState} {n : Notes Body},
      self.Directory n.content nextOffset root os ss → os.Nodup →
      (∀ p ∈ states, ValidState nextOffset p) → IdsFit ss → IdsFit states →
      self.Drafts (self.updateProducers nextOffset states root) n (fun root' n' => ∃ os',
        self.Directory n'.content nextOffset root' os'
          (states.foldl (fun ss state => upsert state ss) ss) ∧ os'.Nodup ∧
        ∀ o ∈ os', o ∈ os ∨ n.content o = none ∧ self.Named o) F := by
  intro states
  -- over the states, each of which is entered into the directory of those before it
  induction states with
  | nil =>
    intro root os ss n h hnodup _ _ _
    exact drafting_pure ⟨os, h, hnodup, fun o ho => .inl ho⟩
  | cons state states ih =>
    intro root os ss n h hnodup hvalid hids hids'
    unfold updateProducers
    refine drafting_bind (drafting_mono (updateProducer_drafts htopic hF hnext h hnodup
      (hvalid state (by simp)) hids (hids' state (by simp)))
      (fun r n₁ hn₁ hr => And.intro hn₁ hr) fun _ => id) ?_
    rintro r n₁ - ⟨hn₁, os₁, hgrove, hnodup₁, hobjects₁⟩
    have hdirectory : self.Directory n₁.content nextOffset (some r) os₁ (upsert state ss) := hgrove
    refine drafting_mono (ih hdirectory hnodup₁ (fun p hp => hvalid p (by simp [hp])) ?_
      fun p hp => hids' p (by simp [hp])) ?_ fun _ => id
    · intro p hp
      rcases mem_upsert hp with rfl | hp
      · exact hids' p (by simp)
      · exact hids p hp
    · rintro root' n' - ⟨os', hdirectory, hnodup', hobjects⟩
      refine ⟨os', hdirectory, hnodup', fun o ho => ?_⟩
      rcases hobjects o ho with hmem | ⟨hnone, hnamed⟩
      · exact hobjects₁ o hmem
      · exact .inr ⟨Grows.none hn₁ hnone, hnamed⟩

end PartitionLog

end Walstream.Log

import Walstream.Log.IndexSafety
import Walstream.Log.Pagination
import Walstream.Log.ReferenceIndex

/-!
# Inserting a leaf

A full leaf that continues a valid tree can always be inserted: the shape errors and the
level limit of `insert_leaf` are unreachable. The new tree holds the old segments and those
of the leaf, and refers to every old page outside the right edge as the old tree did.
-/

namespace Walstream.Log

open Interaction Tiling

/-- The store failed, in a way it may fail, and the error says how. -/
def LogError.FromStore (f : Faults) (e : LogError) : Prop :=
  (f.transport ∨ f.misreport) ∧ ∃ cause, e = .objectStore cause

namespace PartitionLog

variable {self : PartitionLog} {content : String → Option Body}

/-! ## No page occurs twice -/

/-- A page can be stored for one place in the log only. -/
theorem StoredPage.same_place {r r' : PageRef} {page page' : Page}
    (h : self.StoredPage content r page) (h' : self.StoredPage content r' page')
    (hobject : r'.object = r.object) :
    r'.firstOffset = r.firstOffset ∧ r'.level = r.level := by
  have heq : page' = page := by
    have := h'.body.symm.trans (hobject ▸ h.body)
    simpa using this
  subst heq
  cases page' with
  | leaf segments =>
    obtain ⟨hlength, -, hlevel, htiles, -⟩ := checkPage_leaf.mp h.check
    obtain ⟨-, -, hlevel', htiles', -⟩ := checkPage_leaf.mp h'.check
    obtain ⟨s, rest, rfl⟩ : ∃ s rest, segments = s :: rest :=
      List.exists_cons_of_ne_nil (by rintro rfl; simp [pageEntries] at hlength)
    exact ⟨htiles'.1.symm.trans htiles.1, hlevel'.trans hlevel.symm⟩
  | branch children =>
    obtain ⟨hne, -, -, -, hpos, -, hrow⟩ := checkPage_branch_eq_ok.mp h.check
    obtain ⟨-, -, -, -, hpos', -, hrow'⟩ := checkPage_branch_eq_ok.mp h'.check
    obtain ⟨c, rest, rfl⟩ := List.exists_cons_of_ne_nil hne
    refine ⟨hrow'.tiles.1.symm.trans hrow.tiles.1, ?_⟩
    have hlevel := hrow.level_eq c (by simp)
    have hlevel' := hrow'.level_eq c (by simp)
    omega

namespace Forest

variable {pages : List PageRef} {os : List String} {ss : List Segment}

/-- Every page of a forest lies inside the range of one of its roots, and not above it. -/
theorem within (h : self.Forest content pages os ss) {o : String} (ho : o ∈ os) :
    ∃ p ∈ pages, ∃ r page, o = r.object ∧ self.StoredPage content r page ∧
      r.level ≤ p.level ∧ p.firstOffset ≤ r.firstOffset := by
  induction h with
  | nil => simp at ho
  | @leaf r rs segments rest objects page _ ih =>
    rcases List.mem_cons.mp ho with rfl | ho
    · exact ⟨r, by simp, r, _, rfl, page, le_rfl, le_rfl⟩
    · obtain ⟨p, hp, hrest⟩ := ih ho
      exact ⟨p, by simp [hp], hrest⟩
  | @branch r children rs segments objects page _ ih =>
    rcases List.mem_cons.mp ho with rfl | ho
    · exact ⟨r, by simp, r, _, rfl, page, le_rfl, le_rfl⟩
    · obtain ⟨p, hp, r', page', heq, hstored, hlevel, hfirst⟩ := ih ho
      rcases List.mem_append.mp hp with hp | hp
      · obtain ⟨-, -, -, -, hpos, -, hrow⟩ := checkPage_branch_eq_ok.mp page.check
        have hchild := hrow.level_eq p hp
        have hinside := (hrow.tiles.mem hp).1
        exact ⟨r, by simp, r', page', heq, hstored, by omega, by omega⟩
      · exact ⟨p, by simp [hp], r', page', heq, hstored, hlevel, hfirst⟩

/-- References that tile a range have no page in common, and no page is below itself. -/
theorem nodup (h : self.Forest content pages os ss) {a b : Int} (htiles : RefTiles pages a b) :
    os.Nodup := by
  induction h generalizing a with
  | nil => exact List.nodup_nil
  | @leaf r rs segments rest objects page hrest ih =>
    obtain ⟨hfirst', hlt, hafter⟩ := htiles
    refine List.nodup_cons.mpr ⟨fun hmem => ?_, ih hafter⟩
    obtain ⟨p, hp, r', page', heq, hstored, -, hfirst⟩ := within hrest hmem
    have hplace := page.same_place hstored heq.symm
    have hlater := (hafter.mem hp).1
    omega
  | @branch r children rs segments objects page hrest ih =>
    obtain ⟨-, -, -, -, hpos, -, hrow⟩ := checkPage_branch_eq_ok.mp page.check
    obtain ⟨hfirst', hlt, hafter⟩ := htiles
    refine List.nodup_cons.mpr ⟨fun hmem => ?_, ih ((hfirst' ▸ hrow.tiles).append hafter)⟩
    obtain ⟨p, hp, r', page', heq, hstored, hlevel, hfirst⟩ := within hrest hmem
    have hplace := page.same_place hstored heq.symm
    rcases List.mem_append.mp hp with hp | hp
    · -- below `r` the levels are smaller
      have hchild := hrow.level_eq p hp
      omega
    · -- beside `r` the offsets are larger
      have hlater := (hafter.mem hp).1
      omega

end Forest

/-! ## Termination and errors -/

theorem writePage_doneWithin (page : Page) : DoneWithin (self.writePage page) 2 := by
  unfold writePage
  refine doneWithin_check_bind fun bounds _ => ?_
  dsimp only
  split
  · exact doneWithin_throw
  · refine doneWithin_perform fun id => doneWithin_check_bind fun _ _ => ?_
    exact doneWithin_perform fun answer => doneWithin_orStore fun _ => doneWithin_pure

theorem indexPathLoop_doneWithin (level missing : Nat) (r : PageRef) :
    DoneWithin (self.indexPathLoop level missing r) (2 * missing) := by
  induction missing generalizing r with
  | zero => exact doneWithin_pure
  | succ missing ih =>
    unfold indexPathLoop
    split
    · exact doneWithin_bind (writePage_doneWithin _) (fun leaf _ => ih leaf) (by omega)
    · exact doneWithin_pure

/-- One page is read on each level of the right edge, and at most one written on each. -/
theorem insertLeaf_doneWithin (tree leaf : PageRef) :
    DoneWithin (self.insertLeaf tree leaf) (3 * tree.level + 2) := by
  have hpath : ∀ level, DoneWithin (self.indexPathTo leaf level) (2 * level) := fun level =>
    (indexPathLoop_doneWithin level _ leaf).mono (by omega)
  induction hl : tree.level using Nat.strong_induction_on generalizing tree with
  | _ level ih =>
    rw [insertLeaf]
    split
    · split
      · exact doneWithin_throw
      · exact doneWithin_bind (hpath tree.level) (fun _ _ => writePage_doneWithin _) (by omega)
    · refine doneWithin_bind (n := 3 * level + 1) (readPage_doneWithin tree) ?_ (by omega)
      rintro ⟨segments | children, hpage⟩ -
      · exact doneWithin_throw
      · dsimp only
        split
        · exact doneWithin_throw
        · rename_i last hlast
          have hchild := (self.checkPage_branch hpage).2 last (List.mem_of_getLast? hlast)
          split
          · exact doneWithin_bind (hpath last.level) (fun _ _ => writePage_doneWithin _) (by omega)
          · refine doneWithin_bind (ih last.level (by omega) last rfl)
              (fun _ _ => writePage_doneWithin _) (by omega)

/-! ## The tail -/

/-- Whatever the store answers, a root that got additions has a tail. -/
theorem appendAdditions_tail {receivedAtMs : Nat} {additions : List (List Record × Int)}
    {root root' : Root} (h : Yields (self.appendAdditions receivedAtMs additions root) root')
    (hne : root.tail ≠ [] ∨ additions ≠ []) : root'.tail ≠ [] := by
  induction additions generalizing root with
  | nil =>
    obtain rfl := yields_pure h
    exact hne.resolve_right fun hadditions => hadditions rfl
  | cons addition additions ih =>
    unfold appendAdditions at h
    obtain ⟨root₁, -, h⟩ := yields_bind h
    obtain ⟨encoded, -, h⟩ := yields_bind h
    obtain ⟨id, -, h⟩ := yields_bind h
    obtain ⟨revision, -, h⟩ := yields_bind h
    obtain ⟨answer, -, h⟩ := yields_bind h
    obtain ⟨_, -, h⟩ := yields_bind h
    exact ih h (.inl (by simp))

/-- Whatever the store answers and whatever state an append starts from, the root it is about
to publish has a tail. -/
theorem prepareAppend_tail {manifest : LogManifest} {batches : List (List Record × String)}
    {receivedAtMs : Nat} {result : AppendResult} {root : Root}
    (h : Yields (self.prepareAppend manifest batches receivedAtMs) (result, some root)) :
    root.tail ≠ [] := by
  unfold prepareAppend at h
  obtain ⟨d, -, h⟩ := yields_bind h
  split at h
  · cases yields_pure h
  · rename_i hadditions
    obtain ⟨root₁, -, h⟩ := yields_bind h
    obtain ⟨root₂, happended, h⟩ := yields_bind h
    obtain ⟨producers, -, h⟩ := yields_bind h
    cases yields_pure h
    have htail : root₂.tail ≠ [] := appendAdditions_tail happended (.inr hadditions)
    exact htail

/-! ## Insertion -/

/-- A valid index tree: the pages below `r` are there, each is what its reference promises,
and they hold these segments from left to right. -/
def Tree (log : PartitionLog) (content : String → Option Body) (r : PageRef)
    (segments : List Segment) : Prop := ∃ objects, log.Forest content [r] objects segments

/-- A tree and a full leaf that continues it, in a store where the names of UUIDs not handed
out yet are free. -/
structure Insertable {Client : Type} (log : PartitionLog) (b : Bucket Client Body)
    (tree leaf : PageRef) (segments added : List Segment) : Prop where
  free : ∀ id ∉ b.issued, ∀ path ∈ log.names id, b.objects path = none
  stands : log.Tree b.objects tree segments
  stored : log.StoredPage b.objects leaf (.leaf added)
  adjoins : leaf.firstOffset = tree.nextOffset
  fits : leaf.nextOffset ≤ i64Max

variable {Client : Type}

/-- A run of `insert_leaf` that nobody interrupts. -/
abbrev InsertRun (log : PartitionLog) (f : Faults) (cl : Client) (b : Bucket Client Body)
    (tree leaf : PageRef) (cs : List (Cmd Body)) (result : Except LogError PageRef)
    (b' : Bucket Client Body) : Prop :=
  Runs (Bucket.Executes f log.crates.size cl) b (log.insertLeaf tree leaf).run cs result b'

section Insertion

variable {b : Bucket Client Body} {tree leaf : PageRef} {segments added : List Segment}

private theorem Insertable.notes (h : self.Insertable b tree leaf segments added) :
    Private self.names b ⟨b.objects, ∅⟩ := ⟨rfl, h.free, fun _ hpath => hpath.elim⟩

/-- The draft of an insertion fails with nothing of its own. -/
private theorem Insertable.drafts (htopic : validateTopic self.topic = .ok ())
    (hfits : IndexPagesFit self) (h : self.Insertable b tree leaf segments added) :
    self.Drafts (self.insertLeaf tree leaf) ⟨b.objects, ∅⟩ (fun r n' =>
      self.Tree n'.content r (segments ++ added) ∧ r.firstOffset = tree.firstOffset ∧
        r.nextOffset = leaf.nextOffset ∧ Keeps b.objects n'.content tree r) fun _ => False := by
  obtain ⟨objects, htree⟩ := h.stands
  have hleaf : self.Forest b.objects [leaf] [leaf.object] added := Forest.of_leaf h.stored
  have hlevel := (checkPage_leaf.mp h.stored.check).2.2.1
  -- both together tile a range, so they have no page in common
  have htiles : RefTiles ([tree] ++ [leaf]) tree.firstOffset leaf.nextOffset := by
    have hrange := (validatePageRef_eq_ok.mp htree.root_valid).2.2.2.1
    have hrange' := (validatePageRef_eq_ok.mp h.stored.reference).2.2.2.1
    exact ⟨rfl, hrange, h.adjoins, h.adjoins ▸ hrange', rfl⟩
  have hnodup : (objects ++ [leaf.object]).Nodup := Forest.nodup (htree.append hleaf) htiles
  refine drafting_mono (insertLeaf_drafts htopic (fun hbig => absurd hfits hbig) hleaf hlevel h.fits
    htree hnodup h.adjoins.symm) ?_ fun _ hfalse => hfalse
  rintro r n' - ⟨objects', hplanted, hfirst, hnext, -, -, hkeeps⟩
  exact ⟨⟨objects', hplanted.forest⟩, hfirst, hnext, hkeeps⟩

end Insertion

/-- **A leaf can be inserted into every valid tree.** The insertion runs to its end as long as
32 UUIDs are left; whatever the store does, it fails with the store's errors only; and when it
succeeds the new tree is valid, holds the old segments followed by those of the leaf, and
refers to every old page outside the right edge. And whatever state an append starts from, and
whatever the store answers, the root it publishes has a tail. -/
theorem leaf_insertion_is_correct (log : PartitionLog) (cl : Client) :
    (validateTopic log.topic = .ok () → IndexPagesFit log →
      ∀ (b : Bucket Client Body) (tree leaf : PageRef) (segments added : List Segment),
        log.Insertable b tree leaf segments added →
        (∀ ids : List Uuid, ids.Nodup → 32 ≤ ids.length → (∀ id ∈ ids, id ∉ b.issued) →
          ∃ cs result b', log.InsertRun Faults.none cl b tree leaf cs result b') ∧
        ∀ f cs result b', log.InsertRun f cl b tree leaf cs result b' →
          (∀ e, result = .error e → LogError.FromStore f e) ∧
          ∀ r, result = .ok r → log.Tree b'.objects r (segments ++ added) ∧
            r.firstOffset = tree.firstOffset ∧ r.nextOffset = leaf.nextOffset ∧
            (∀ path body, b.objects path = some body → b'.objects path = some body) ∧
            ∀ p, Below b.objects tree p → ¬ RightEdge b.objects tree p → Below b'.objects r p) ∧
    ∀ manifest batches receivedAtMs result root,
      Yields (log.prepareAppend manifest batches receivedAtMs) (result, some root) →
        root.tail ≠ [] := by
  refine ⟨fun htopic hfits b tree leaf segments added h => ?_,
    fun _ _ _ _ _ hyields => prepareAppend_tail hyields⟩
  have hdrafts := h.drafts htopic hfits
  obtain ⟨objects, htree⟩ := h.stands
  have hlevel := (validatePageRef_eq_ok.mp htree.root_valid).2.1
  refine ⟨fun ids hnodup hlength hids => ?_, fun f cs result b' hrun => ?_⟩
  · have hdone : DoneWithin (log.insertLeaf tree leaf) 32 := by
      refine (insertLeaf_doneWithin tree leaf).mono ?_
      have : maxIndexLevel = 10 := rfl
      omega
    exact Drafts.exists_runs log.names_disjoint hdrafts h.notes hdone hnodup hlength hids
  · obtain ⟨hok, herror⟩ := Drafts.runs_faulty log.names_disjoint hdrafts h.notes hrun
    refine ⟨fun e he => ?_, fun r hr => ?_⟩
    · obtain ⟨hfault, cause, hreports⟩ := (herror e he).resolve_left id
      -- no segment is read
      have hmundane : Mundane fun x => ∀ object cause, x ≠ .missingSegment object cause :=
        ⟨by simp [invalid], by simp, by simp, by simp⟩
      have hany : log.Grants fun _ => True := ⟨fun _ => trivial, trivial, fun _ _ _ => trivial⟩
      have hplain := (((obeys_paginates hmundane hany).insertLeaf tree leaf).runs hrun).2 e he
      rcases hreports with hstore | ⟨object, hmissing⟩
      · exact ⟨hfault, cause, hstore⟩
      · exact absurd hmissing (hplain object cause)
    · obtain ⟨n', hgrows, hprivate, hnew, hfirst, hnext, hkeeps⟩ := hok r hr
      rw [hprivate.content] at hnew hkeeps
      refine ⟨hnew, hfirst, hnext, fun path body hbody => ?_, fun p hp hedge => ?_⟩
      · rw [← hprivate.content]
        exact hgrows.content path body hbody
      · exact (hkeeps p hp).resolve_left hedge

end PartitionLog

namespace Reference

open PartitionLog

/-- A store with these pages. -/
def leaves : Bucket Unit Body := .initial leafPages {0, 1}

theorem leaves_insertable :
    log.Insertable leaves (leafOf 0 0) (leafOf 1 64) (segmentsFrom 0) (segmentsFrom 64) := by
  refine ⟨fun id hid path hpath => leafPages_other ?_ ?_,
    ⟨_, Forest.of_leaf (leaf_stored (by decide) leafPages_zero)⟩,
    leaf_stored (by decide) leafPages_one, rfl, by decide⟩
  all_goals
    rintro rfl
    exact hid (log.names_disjoint (log.indexPath_mem _) hpath ▸ by simp [leaves, Bucket.initial])

/-- Inserting the second leaf into the tree that is the first one. -/
theorem leaf_insertion_is_correct_leaves :
    (∀ ids : List Uuid, ids.Nodup → 32 ≤ ids.length → (∀ id ∈ ids, id ∉ leaves.issued) →
      ∃ cs result b', log.InsertRun Faults.none () leaves (leafOf 0 0) (leafOf 1 64) cs result b') ∧
    ∀ f cs result b', log.InsertRun f () leaves (leafOf 0 0) (leafOf 1 64) cs result b' →
      (∀ e, result = .error e → LogError.FromStore f e) ∧
      ∀ r, result = .ok r → log.Tree b'.objects r (segmentsFrom 0 ++ segmentsFrom 64) ∧
        r.firstOffset = 0 ∧ r.nextOffset = 128 ∧
        (∀ path body, leaves.objects path = some body → b'.objects path = some body) ∧
        ∀ p, Below leaves.objects (leafOf 0 0) p → ¬ RightEdge leaves.objects (leafOf 0 0) p →
          Below b'.objects r p :=
  (leaf_insertion_is_correct log ()).1 topic_valid fits.toIndexPagesFit leaves _ _ _ _
    leaves_insertable

end Reference

end Walstream.Log

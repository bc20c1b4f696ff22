import Walstream.Log.CheckErrors

/-!
# Programs that read and write pages

Sealing a tail, inserting a leaf and updating the producer directory are made of accesses to
single pages. What such accesses have, and sequences inherit from their parts, these programs
have as well (`Paginates`), whatever the store answers.
-/

namespace Walstream.Log

open Interaction

namespace PartitionLog

/-- Sequences inherit the property from their parts, and reading a single page has it. -/
structure Consults (log : PartitionLog) (K : (α : Type) → Engine α → Prop) : Prop where
  pure : ∀ {α : Type} (a : α), K α (Pure.pure a)
  bind : ∀ {α β : Type} {x : Engine α} {f : α → Engine β}, K α x → (∀ a, K β (f a)) → K β (x >>= f)
  overflow : ∀ {α : Type}, K α (throw .offsetOverflow)
  malformed : ∀ {α : Type} (detail : String), K α (throw (invalid detail))
  readPage : ∀ r, K _ (log.readPage r)
  readProducerPage : ∀ r nextOffset, K _ (log.readProducerPage r nextOffset)

/-- Writing a single page has it, too. -/
structure Paginates (log : PartitionLog) (K : (α : Type) → Engine α → Prop) : Prop
    extends log.Consults K where
  writePage : ∀ page, K _ (log.writePage page)
  writeProducerPage : ∀ page nextOffset, K _ (log.writeProducerPage page nextOffset)

section Rules

variable {self : PartitionLog} {P : LogError → Prop} {φ : Cmd Body → Prop}

/-- Keeping to a rule is such a property. -/
theorem obeys_consults (hP : Mundane P) (hget : ∀ path, φ (.get path)) :
    self.Consults fun _ x => Obeys φ P x where
  pure _ := obeys_pure
  bind := obeys_bind
  overflow := obeys_throw hP.overflow
  malformed detail := obeys_throw (hP.invalid detail)
  readPage r := self.readPage_obeys hP hget r
  readProducerPage r nextOffset := self.readProducerPage_obeys hP hget r nextOffset

theorem obeys_paginates (hP : Mundane P) (hφ : self.Grants φ) :
    self.Paginates fun _ x => Obeys φ P x where
  toConsults := obeys_consults hP hφ.get
  writePage page := self.writePage_obeys hP hφ page
  writeProducerPage page nextOffset := self.writeProducerPage_obeys hP hφ page nextOffset

end Rules

/-- Looking up a producer reads pages only. -/
theorem Consults.producerState {log : PartitionLog} {K : (α : Type) → Engine α → Prop}
    (h : log.Consults K) (root : Option ProducerRef) (id nextOffset : Int) :
    K _ (log.producerState root id nextOffset) := by
  unfold PartitionLog.producerState
  induction hn : root.elim 0 (·.level + 1) using Nat.strong_induction_on generalizing root with
  | _ n ih =>
    rcases root with _ | r
    · rw [producerStateFrom]
      exact h.pure _
    · rw [producerStateFrom]
      split
      · exact h.pure _
      · apply h.bind (h.readProducerPage r nextOffset)
        rintro ⟨producers | children, hpage⟩
        · exact h.pure _
        · dsimp only
          split
          · exact h.pure _
          · rename_i child hchild
            -- the child is one level further down
            have hlevel := (log.checkProducerPage_branch hpage).2 child
              (List.mem_of_find?_eq_some hchild)
            refine ih (child.level + 1) ?_ (some child) rfl
            simp only [Option.elim_some] at hn
            omega

namespace Paginates

variable {log : PartitionLog} {K : (α : Type) → Engine α → Prop} (h : log.Paginates K)

include h

/-! ## The index -/

theorem indexPathTo (leaf : PageRef) (level : Nat) : K _ (log.indexPathTo leaf level) := by
  unfold PartitionLog.indexPathTo
  generalize level - leaf.level = missing
  induction missing generalizing leaf with
  | zero => exact h.pure _
  | succ missing ih =>
    unfold indexPathLoop
    split
    · apply h.bind (h.writePage _)
      intro leaf
      exact ih leaf
    · exact h.pure _

theorem insertLeaf (tree leaf : PageRef) : K _ (log.insertLeaf tree leaf) := by
  -- the insertion descends to a child, whose level is smaller
  induction hl : tree.level using Nat.strong_induction_on generalizing tree with
  | _ level ih =>
    rw [PartitionLog.insertLeaf]
    split
    · split
      · exact h.overflow
      · exact h.bind (h.indexPathTo leaf _) fun _ => h.writePage _
    · apply h.bind (h.readPage tree)
      rintro ⟨segments | children, hpage⟩
      · exact h.malformed _
      · dsimp only
        split
        · exact h.malformed _
        · rename_i last hlast
          have hchild := (log.checkPage_branch hpage).2 last (List.mem_of_getLast? hlast)
          split
          · exact h.bind (h.indexPathTo leaf _) fun _ => h.writePage _
          · exact h.bind (ih last.level (by omega) last rfl) fun _ => h.writePage _

theorem sealFullTail (root : Root) : K _ (log.sealFullTail root) := by
  unfold PartitionLog.sealFullTail
  split
  · unfold sealTail
    apply h.bind (h.writePage _)
    intro leaf
    dsimp only
    split
    · exact h.bind (h.insertLeaf _ leaf) fun tree => h.pure _
    · exact h.pure _
  · exact h.pure _

theorem appendRoot (m : LogManifest) (nowMs : Nat) : K _ (log.appendRoot m nowMs) := by
  have hsegments : ∀ (segments : List Segment) (root : Root),
      K _ (log.migrateSegments segments root) := by
    intro segments
    induction segments with
    | nil => exact fun _ => h.pure _
    | cons segment segments ih =>
      intro root
      exact h.bind (h.sealFullTail root) fun root => ih _
  unfold PartitionLog.appendRoot
  refine h.bind ?_ fun root => h.sealFullTail root
  unfold adoptManifest
  split
  · exact h.bind (hsegments _ _) fun root => h.pure _
  · split
    · exact h.pure _
    · exact h.pure _

/-! ## The producer directory -/

theorem descend (id nextOffset : Int) (cursor : Option ProducerRef) (path : ProducerPath) :
    K _ (log.descend id nextOffset cursor path) := by
  induction hn : cursor.elim 0 (·.level + 1) using Nat.strong_induction_on
    generalizing cursor path with
  | _ n ih =>
    rcases cursor with _ | r
    · rw [PartitionLog.descend]
      exact h.pure _
    · rw [PartitionLog.descend]
      apply h.bind (h.readProducerPage r nextOffset)
      rintro ⟨producers | children, hpage⟩
      · exact h.pure _
      · dsimp only
        split
        · exact h.pure _
        · rename_i child hchild
          have hlevel := (log.checkProducerPage_branch hpage).2 child
            (List.mem_of_getElem? hchild)
          refine ih (child.level + 1) ?_ (some child) _ rfl
          simp only [Option.elim_some] at hn
          omega

theorem writeProducerPages (nextOffset : Int) (pages : List ProducerPage) :
    K _ (log.writeProducerPages nextOffset pages) := by
  induction pages with
  | nil => exact h.pure _
  | cons page pages ih =>
    exact h.bind (h.writeProducerPage page nextOffset) fun reference =>
      h.bind ih fun references => h.pure _

theorem ascend (nextOffset : Int) (path : ProducerPath) (pages : List ProducerPage) :
    K _ (log.ascend nextOffset path pages) := by
  induction path generalizing pages with
  | nil =>
    apply h.bind (h.writeProducerPages nextOffset pages)
    intro references
    split
    · exact h.pure _
    · exact h.writeProducerPage _ nextOffset
  | cons entry path ih =>
    exact h.bind (h.writeProducerPages nextOffset pages) fun references => ih _

theorem updateProducers (nextOffset : Int) (states : List ProducerState)
    (producers : Option ProducerRef) : K _ (log.updateProducers nextOffset states producers) := by
  induction states generalizing producers with
  | nil => exact h.pure _
  | cons state states ih =>
    refine h.bind (x := log.updateProducer producers state nextOffset) ?_ fun producers =>
      ih (some producers)
    exact h.bind (h.descend _ _ producers []) fun found => h.ascend _ _ _

end Paginates

end PartitionLog

end Walstream.Log

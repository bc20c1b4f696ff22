import Walstream.Log.ProducerTree

/-!
# Lookup and update of the producer directory

Looking up an id in the directory finds it in the sorted list the directory stands for;
updating the directory updates that list, copying the path to one leaf and splitting the
pages that become too large.
-/

namespace Walstream.Log

open Interaction

namespace PartitionLog

variable {self : PartitionLog} {n : Notes Body} {F : LogError → Prop} {nextOffset : Int}
  {content : String → Option Body}

/-! ## Lookup -/

theorem Grove.single {r : ProducerRef} {os : List String} {ss : List ProducerState}
    (h : self.Grove content nextOffset [r] os ss) :
    Sorted ss ∧ (∀ p ∈ ss, r.firstId ≤ p.id ∧ p.id ≤ r.lastId) ∧ ss.length = r.count := by
  obtain ⟨hsorted, hranges⟩ := h.sorted (List.pairwise_singleton _ _)
  refine ⟨hsorted, fun p hp => ?_, by simpa using h.count⟩
  obtain ⟨q, hq, hle⟩ := hranges p hp
  rwa [← List.mem_singleton.mp hq]

/-- An id outside the range of every page is not found below them. -/
theorem Grove.find_none {pages : List ProducerRef} {os : List String} {ss : List ProducerState}
    {id : Int} (h : self.Grove content nextOffset pages os ss) (hspaced : Spaced pages)
    (hid : ∀ r ∈ pages, ¬ (r.firstId ≤ id ∧ id ≤ r.lastId)) : ss.find? (·.id = id) = none :=
  h.leaves.find_none (fun _ _ h => h.check) hspaced hid

/-- Looking up an id in the directory. -/
theorem producerStateFrom_drafts {id : Int} {Q : Option ProducerState → Notes Body → Prop} :
    ∀ {r : ProducerRef} {os : List String} {ss : List ProducerState},
      self.Grove n.content nextOffset [r] os ss → Q (ss.find? (·.id = id)) n →
      self.Drafts (self.producerStateFrom id nextOffset (some r)) n Q F := by
  intro r
  -- on the level of the page, with the state that is to be found
  induction hl : r.level using Nat.strong_induction_on generalizing r with
  | _ level ih =>
    intro os ss h hQ
    rw [producerStateFrom]
    dsimp only
    -- the id lies outside the range of the page
    split
    · rename_i hout
      refine drafting_pure ?_
      rwa [h.find_none (List.pairwise_singleton _ _) (by simp; omega)] at hQ
    -- the id may lie below the page
    · cases h with
      | @leaf _ _ states rest objects page hnil =>
        cases hnil
        exact readProducerPage_bind_drafts page (drafting_pure (by simpa using hQ))
      | @branch _ children _ _ objects page thick h =>
        refine readProducerPage_bind_drafts page ?_
        obtain ⟨-, -, hchildren, hspaced, -⟩ := check_branch page.check
        rw [List.append_nil] at h
        dsimp only
        -- the child whose range has the id is searched, and no other has it
        split
        · rename_i hnone
          refine drafting_pure ?_
          rw [h.find_none hspaced fun c hc hin => ?_] at hQ
          · exact hQ
          · have := List.find?_eq_none.mp hnone c hc
            simp [hin] at this
        · rename_i child hchild
          obtain ⟨hin, init, rest, rfl, -⟩ := List.find?_eq_some_iff_append.mp hchild
          obtain ⟨os₁, os₂, ss₁, ss₂, rfl, rfl, h₁, h₂⟩ := h.split
          obtain ⟨os₃, os₄, ss₃, ss₄, rfl, rfl, h₃, h₄⟩ := Grove.split_head h₂
          refine ih child.level ?_ rfl h₃ ?_
          · have := (hchildren child (by simp)).2
            omega
          · rwa [h₁.leaves.find_middle (fun _ _ h => h.check) h₄.leaves hspaced
              (by simpa using hin)] at hQ

/-- The states of a directory that may be absent. -/
def Directory (log : PartitionLog) (content : String → Option Body) (nextOffset : Int)
    (root : Option ProducerRef) (os : List String) (ss : List ProducerState) : Prop :=
  log.Grove content nextOffset root.toList os ss

theorem producerState_drafts {root : Option ProducerRef} {os : List String}
    {ss : List ProducerState} {id : Int} {Q : Option ProducerState → Notes Body → Prop}
    (h : self.Directory n.content nextOffset root os ss) (hQ : Q (ss.find? (·.id = id)) n) :
    self.Drafts (self.producerState root id nextOffset) n Q F := by
  unfold producerState
  cases root with
  | none =>
    cases h
    rw [producerStateFrom]
    exact drafting_pure hQ
  | some r => exact producerStateFrom_drafts h hQ

/-! ## Tracing -/

theorem Grove.reverse {pages : List ProducerRef} {os : List String} {ss : List ProducerState}
    (h : self.Grove content nextOffset pages os ss) :
    ∃ os' ss', os'.Perm os ∧ self.Grove content nextOffset pages.reverse os' ss' := by
  induction pages generalizing os ss with
  | nil => cases h; exact ⟨[], [], .nil, .nil⟩
  | cons r pages ih =>
    obtain ⟨os₁, os₂, ss₁, ss₂, rfl, rfl, h₁, h₂⟩ := Grove.split_head h
    obtain ⟨os', ss', hperm, h'⟩ := ih h₂
    refine ⟨os' ++ os₁, ss' ++ ss₁, ?_, by simpa using h'.append h₁⟩
    exact (hperm.append_right os₁).trans List.perm_append_comm

/-- A complete trace finds every page. -/
theorem traceProducersLoop_drafts {maximum : Nat} {Q : LiveGraph → Notes Body → Prop}
    (hF : F (.maintenanceBudget maximum)) :
    ∀ {pages : List ProducerRef} {os : List String} {ss : List ProducerState} {graph : LiveGraph},
      self.Grove n.content nextOffset pages os ss → (os ++ graph.objects).Nodup →
      (∀ objects, (∀ o, o ∈ objects ↔ o ∈ os ++ graph.objects) → objects.Nodup →
        Q ⟨graph.segments, objects⟩ n) →
      self.Drafts (self.traceProducersLoop maximum nextOffset pages graph) n Q F := by
  suffices ∀ N, ∀ {pages : List ProducerRef} {os : List String} {ss : List ProducerState}
      {graph : LiveGraph}, os.length ≤ N → self.Grove n.content nextOffset pages os ss →
      (os ++ graph.objects).Nodup →
      (∀ objects, (∀ o, o ∈ objects ↔ o ∈ os ++ graph.objects) → objects.Nodup →
        Q ⟨graph.segments, objects⟩ n) →
      self.Drafts (self.traceProducersLoop maximum nextOffset pages graph) n Q F from
    fun {_ os _ _} h => this os.length le_rfl h
  intro N
  induction N with
  | zero =>
    intro pages os ss graph hlen h hnodup hQ
    cases h with
    | nil =>
      rw [traceProducersLoop]
      exact drafting_pure (hQ _ (by simp) (by simpa using hnodup))
    | leaf page h => simp at hlen
    | branch page thick h => simp at hlen
  | succ N ih =>
    intro pages os ss graph hlen h hnodup hQ
    -- entering the first page only fails for want of budget
    have henter : ∀ {r : ProducerRef} {rest : List String} {α : Type} {P : α → Notes Body → Prop}
        {f : LiveGraph → Engine α}, (r.object :: rest ++ graph.objects).Nodup →
        self.Drafts (f { graph with objects := r.object :: graph.objects }) n P F →
        self.Drafts (do f (← Engine.check (graph.insert r.object maximum))) n P F := by
      intro r rest α P f hnodup hf
      have hnew : r.object ∉ graph.objects := fun hmem =>
        (List.nodup_cons.mp hnodup).1 (List.mem_append_right _ hmem)
      refine drafts_check_bind (fun graph' hinsert => ?_) fun x hx => ?_
      · obtain ⟨-, -, rfl⟩ := insert_eq_ok.mp hinsert
        exact hf
      · rw [insert_eq_error hnew hx]
        exact hF
    cases h with
    | nil =>
      rw [traceProducersLoop]
      exact drafting_pure (hQ _ (by simp) (by simpa using hnodup))
    | @leaf r rs states rest objects page h =>
      rw [traceProducersLoop]
      refine henter hnodup (readProducerPage_bind_drafts page (ih (by simpa using hlen) h ?_ ?_))
      · exact (List.perm_middle.nodup_iff).mpr hnodup
      · intro found hfound hfoundNodup
        refine hQ found (fun o => (hfound o).trans ?_) hfoundNodup
        simp only [List.mem_append, List.mem_cons]
        tauto
    | @branch r children rs states objects page thick h =>
      rw [traceProducersLoop]
      obtain ⟨os₁, os₂, ss₁, ss₂, rfl, rfl, h₁, h₂⟩ := h.split
      obtain ⟨os₁', ss₁', hperm, h₁'⟩ := h₁.reverse
      have hlength := hperm.length_eq
      simp only [List.length_cons, List.length_append] at hlen
      refine henter hnodup (readProducerPage_bind_drafts page
        (ih (by simp only [List.length_append]; omega) (h₁'.append h₂) ?_ ?_))
      · refine (List.Perm.nodup_iff ?_).mpr hnodup
        refine List.perm_middle.trans (List.Perm.cons _ ?_)
        exact (hperm.append_right os₂).append_right _
      · intro found hfound hfoundNodup
        refine hQ found (fun o => (hfound o).trans ?_) hfoundNodup
        simp only [List.mem_append, List.mem_cons, hperm.mem_iff]
        tauto

theorem traceProducers_drafts {maximum : Nat} {root : Root} {os : List String}
    {ss : List ProducerState} {graph : LiveGraph} {Q : LiveGraph → Notes Body → Prop}
    (hF : F (.maintenanceBudget maximum))
    (h : self.Directory n.content root.nextOffset root.producers os ss)
    (hnodup : (os ++ graph.objects).Nodup)
    (hQ : ∀ objects, (∀ o, o ∈ objects ↔ o ∈ os ++ graph.objects) → objects.Nodup →
      Q ⟨graph.segments, objects⟩ n) :
    self.Drafts (self.traceProducers root graph maximum) n Q F :=
  traceProducersLoop_drafts hF h hnodup hQ

end PartitionLog

end Walstream.Log

import Walstream.Log.IndexSafety
import Walstream.Log.ProducerMap

/-!
# Directory lookup and full scan agree

The producer pages of an arbitrary store: forged, cyclic or shared pages, of any height. What
`read_producer_page` checks of each page is enough. A trace that ends without an error has
read the leaves in decreasing order; they hold a sorted list, and the lookup of an id, which
reads one path only, finds what is in that list.
-/

namespace Walstream.Log

open Interaction

namespace PartitionLog

variable {self : PartitionLog} {content : String → Option Body} {nextOffset : Int}

/-- In a store with this content, `read_producer_page` answers the reference with this page. -/
def ProducerAnswered (log : PartitionLog) (content : String → Option Body) (nextOffset : Int)
    (r : ProducerRef) (page : ProducerPage) : Prop :=
  ∃ h, log.evaluate content (log.readProducerPage r nextOffset) = .ok ⟨page, h⟩

/-- The states in the leaves below a reference, in the order of the leaves. -/
def Flattened (log : PartitionLog) (content : String → Option Body) (nextOffset : Int)
    (r : ProducerRef) (states : List ProducerState) : Prop :=
  Leaves (log.ProducerAnswered content nextOffset) [r] states

theorem ProducerAnswered.check {r : ProducerRef} {page : ProducerPage}
    (h : self.ProducerAnswered content nextOffset r page) :
    self.checkProducerPage nextOffset r page = .ok () := h.1

theorem ProducerAnswered.unique {r : ProducerRef} {page page' : ProducerPage}
    (h : self.ProducerAnswered content nextOffset r page)
    (h' : self.ProducerAnswered content nextOffset r page') : page = page' := by
  obtain ⟨_, hread⟩ := h
  obtain ⟨_, hread'⟩ := h'
  rw [hread] at hread'
  exact congrArg Subtype.val (Except.ok.inj hread')

/-! ## The trace -/

/-- A trace that succeeds has read every page; the last pending reference comes first. -/
theorem traceProducersLoop_leaves {maximum : Nat} {pending : List ProducerRef}
    {graph graph' : LiveGraph}
    (h : self.evaluate content (self.traceProducersLoop maximum nextOffset pending graph) =
      .ok graph') :
    ∃ states, Leaves (self.ProducerAnswered content nextOffset) pending.reverse states := by
  -- each page that is read weighs more than the children that take its place
  induction hweight : stackWeight (pending.map (·.level)) using Nat.strong_induction_on
    generalizing pending graph with
  | _ weight ih =>
  subst hweight
  cases pending with
  | nil => exact ⟨[], .nil⟩
  | cons r pending =>
    rw [traceProducersLoop, evaluate_bind, bind_eq_ok] at h
    obtain ⟨entered, -, h⟩ := h
    rw [evaluate_bind, bind_eq_ok] at h
    obtain ⟨⟨page, hcheck⟩, hread, h⟩ := h
    have hanswered : self.ProducerAnswered content nextOffset r page := ⟨hcheck, hread⟩
    rw [List.reverse_cons]
    cases page with
    | leaf states =>
      obtain ⟨before, hbefore⟩ := ih _ (stackWeight_lt_cons r.level _) h rfl
      exact ⟨before ++ (states ++ []), hbefore.append (.leaf hanswered .nil)⟩
    | branch children =>
      have hchildren := stackWeight_children (self.checkProducerPage_levels hcheck).1
        (self.checkProducerPage_levels hcheck).2
      have hlt : stackWeight ((children.reverse ++ pending).map (·.level)) <
          stackWeight ((r :: pending).map (·.level)) := by
        rw [List.map_append, stackWeight_append, List.map_cons, stackWeight_cons]
        omega
      obtain ⟨states, hstates⟩ := ih _ hlt h rfl
      rw [List.reverse_append, List.reverse_reverse] at hstates
      obtain ⟨before, below, rfl, hbefore, hbelow⟩ := hstates.split
      exact ⟨before ++ (below ++ []), hbefore.append (.branch hanswered hbelow .nil)⟩

/-- A trace reads at most as many pages as its stack weighs. -/
theorem traceProducersLoop_doneWithin (maximum : Nat) (pending : List ProducerRef)
    (graph : LiveGraph) : DoneWithin (self.traceProducersLoop maximum nextOffset pending graph)
      (stackWeight (pending.map (·.level))) := by
  induction hweight : stackWeight (pending.map (·.level)) using Nat.strong_induction_on
    generalizing pending graph with
  | _ weight ih =>
  subst hweight
  cases pending with
  | nil =>
    rw [traceProducersLoop]
    exact doneWithin_pure
  | cons r pending =>
    rw [traceProducersLoop]
    have hpop := stackWeight_lt_cons r.level (pending.map (·.level))
    refine doneWithin_check_bind fun graph _ => ?_
    refine doneWithin_bind (n := stackWeight ((r :: pending).map (·.level)) - 1)
      (readProducerPage_doneWithin r nextOffset) ?_ (by simp only [List.map_cons]; omega)
    -- a leaf is popped, and a branch is replaced by its children, which weigh less
    rintro ⟨states | children, hcheck⟩ -
    · exact (ih _ hpop pending _ rfl).mono (by simp only [List.map_cons]; omega)
    · have hchildren := stackWeight_children (self.checkProducerPage_levels hcheck).1
        (self.checkProducerPage_levels hcheck).2
      have hlt : stackWeight ((children.reverse ++ pending).map (·.level)) <
          stackWeight ((r :: pending).map (·.level)) := by
        rw [List.map_append, stackWeight_append, List.map_cons, stackWeight_cons]
        omega
      exact (ih _ hlt (children.reverse ++ pending) _ rfl).mono (by omega)

/-! ## The lookup -/

/-- A lookup reads one page of each level at most. -/
theorem producerStateFrom_doneWithin (id : Int) (cursor : Option ProducerRef) :
    DoneWithin (self.producerStateFrom id nextOffset cursor) (cursor.elim 0 (·.level + 1)) := by
  induction hlevel : cursor.elim 0 (·.level + 1) using Nat.strong_induction_on
    generalizing cursor with
  | _ level ih =>
  subst hlevel
  cases cursor with
  | none =>
    rw [producerStateFrom]
    exact doneWithin_pure
  | some r =>
    rw [producerStateFrom]
    simp only [Option.elim_some]
    split
    · exact doneWithin_pure
    · refine doneWithin_bind (n := r.level) (readProducerPage_doneWithin r nextOffset) ?_ (by omega)
      -- the lookup ends in a leaf, or goes on one level below
      rintro ⟨producers | children, hpage⟩ -
      · exact doneWithin_pure
      · dsimp only
        split
        · exact doneWithin_pure
        · rename_i child hchild
          have := (self.checkProducerPage_branch hpage).2 child (List.mem_of_find?_eq_some hchild)
          exact (ih (child.level + 1) (by simp only [Option.elim_some]; omega) (some child) rfl).mono
            (by omega)

/-- A lookup finds what the flattened leaves say. -/
theorem producerStateFrom_evaluate (id : Int) {r : ProducerRef} {states : List ProducerState}
    (h : self.Flattened content nextOffset r states) :
    self.evaluate content (self.producerStateFrom id nextOffset (some r)) =
      .ok (states.find? (·.id = id)) := by
  have hcheck : ∀ r p, self.ProducerAnswered content nextOffset r p →
      self.checkProducerPage nextOffset r p = .ok () := fun r p hp => hp.check
  induction hlevel : r.level using Nat.strong_induction_on generalizing r states with
  | _ level ih =>
  subst hlevel
  rw [producerStateFrom]
  dsimp only
  split
  · rename_i hout
    have hnone : states.find? (·.id = id) = none :=
      h.find_none hcheck (List.pairwise_singleton _ _) (by simp; omega)
    rw [hnone]
    exact evaluate_pure none
  · cases h with
    | leaf hpage hnil =>
      cases hnil
      obtain ⟨_, hread⟩ := hpage
      rw [evaluate_bind, hread, List.append_nil]
      rfl
    | @branch _ children _ below _ hpage hbelow hnil =>
      cases hnil
      obtain ⟨-, -, hchildren, hspaced, -⟩ := check_branch hpage.check
      obtain ⟨_, hread⟩ := hpage
      rw [evaluate_bind, hread, List.append_nil]
      dsimp only [bind, Except.bind]
      split
      · rename_i hnone
        have hgap : below.find? (·.id = id) = none := hbelow.find_none hcheck hspaced fun c hc hin => by
          have := List.find?_eq_none.mp hnone c hc
          simp [hin] at this
        rw [hgap]
        exact evaluate_pure none
      · rename_i child hchild
        -- the first child whose range has the id is the only one
        obtain ⟨hin, init, rest, rfl, -⟩ := List.find?_eq_some_iff_append.mp hchild
        obtain ⟨before, after, rfl, hbefore, hafter⟩ := hbelow.split
        obtain ⟨found, after, rfl, hfound, hafter⟩ :=
          Leaves.split (show Leaves _ ([child] ++ rest) after from hafter)
        have hlt : child.level < r.level := by
          have := (hchildren child (by simp)).2
          omega
        rw [hbefore.find_middle hcheck hafter hspaced (by simpa using hin)]
        exact ih child.level hlt hfound rfl

/-- **Lookup agrees with a full scan.** Whatever the store holds, a lookup is done after
one request for each level and a trace after at most 65 to the power of the level. When the
trace succeeds, the leaves below the reference hold one list of states: its ids increase, it
is as long as the reference says, and the lookup of an id returns the state of the list with
that id, or `None` when there is none. -/
theorem directory_lookup_agrees_with_scan (log : PartitionLog) (content : String → Option Body)
    (root : Root) (r : ProducerRef) (graph : LiveGraph) (maximum : Nat)
    (hroot : root.producers = some r) :
    (∀ id, DoneWithin (log.producerState root.producers id root.nextOffset) (r.level + 1)) ∧
    DoneWithin (log.traceProducers root graph maximum) ((pageEntries + 1) ^ r.level) ∧
    ∀ traced, log.evaluate content (log.traceProducers root graph maximum) = .ok traced →
      ∃ states, (∀ ss, log.Flattened content root.nextOffset r ss ↔ ss = states) ∧
        Sorted states ∧ states.length = r.count ∧
        ∀ id, ∃ found,
          log.evaluate content (log.producerState root.producers id root.nextOffset) = .ok found ∧
          ∀ s, found = some s ↔ s ∈ states ∧ s.id = id := by
  have hweight : stackWeight (root.producers.toList.map (·.level)) = (pageEntries + 1) ^ r.level := by
    simp [hroot, stackWeight]
  -- the lookup, the trace, and how they agree
  refine ⟨fun id => ?_, ?_, fun traced htrace => ?_⟩
  · have hdone : DoneWithin (log.producerStateFrom id root.nextOffset root.producers) _ :=
      producerStateFrom_doneWithin id root.producers
    rwa [hroot] at hdone ⊢
  · rw [← hweight]
    exact traceProducersLoop_doneWithin maximum root.producers.toList graph
  -- the trace has found a list of leaves
  · obtain ⟨states, hstates⟩ := traceProducersLoop_leaves htrace
    have hflat : log.Flattened content root.nextOffset r states := by
      simpa [hroot, Flattened] using hstates
    have hcheck : ∀ r p, log.ProducerAnswered content root.nextOffset r p →
        log.checkProducerPage root.nextOffset r p = .ok () := fun r p hp => hp.check
    have hsorted := (hflat.sorted hcheck (List.pairwise_singleton _ _)).1
    -- the list is determined by what the pages say
    refine ⟨states, fun ss => ⟨fun hss => ?_, ?_⟩, hsorted, by simpa using hflat.count hcheck, ?_⟩
    · exact hss.unique (fun r p q hp hq => hp.unique hq) hflat
    · rintro rfl
      exact hflat
    -- the lookup reads the pages that the trace has read
    · intro id
      refine ⟨_, ?_, fun s => hsorted.find_eq_some_iff⟩
      rw [hroot]
      exact producerStateFrom_evaluate id hflat

/-! ## One page -/

/-- Where a directory is stored, its pages are answered. -/
theorem StoredProducerPage.answered {r : ProducerRef} {page : ProducerPage}
    (h : self.StoredProducerPage content nextOffset r page) :
    self.ProducerAnswered content nextOffset r page := by
  have hdraft : self.Drafts (self.readProducerPage r nextOffset) ⟨content, ∅⟩
      (fun p _ => p = ⟨page, h.check⟩) fun _ => False := readProducerPage_drafts h rfl
  obtain ⟨p, hread, rfl⟩ | ⟨_, -, hfalse⟩ :=
    Drafts.eval hdraft (readProducerPage_reads r nextOffset) fun _ _ h => h
  · exact ⟨h.check, hread⟩
  · exact hfalse.elim

/-! ## A branch over two leaves -/

section Reference

open Reference

/-- The reference to a page that stands under the name of this UUID. -/
def producerRefTo (id : Uuid) (page : ProducerPage) (first last count level : Nat) : ProducerRef where
  object := log.producerPath id
  firstId := first
  lastId := last
  count := count
  level := level
  byteLength := log.crates.size (.producerPage page)
  sha256 := log.crates.sha256Hex (.producerPage page)

def lowPage : ProducerPage := .leaf [firstState 0, firstState 2]
def lowRef : ProducerRef := producerRefTo 0 lowPage 0 2 2 0

def highPage : ProducerPage := .leaf [firstState 5, firstState 9]
def highRef : ProducerRef := producerRefTo 1 highPage 5 9 2 0

def scannedPage : ProducerPage := .branch [lowRef, highRef]
def scannedRef : ProducerRef := producerRefTo 2 scannedPage 0 9 4 1

def scannedRoot : Root := { root with producers := some scannedRef }

def scannedContent (path : String) : Option Body :=
  if path = log.producerPath 0 then some (.producerPage lowPage)
  else if path = log.producerPath 1 then some (.producerPage highPage)
  else if path = log.producerPath 2 then some (.producerPage scannedPage)
  else none

theorem leaf_scanned {id : Uuid} {i j : Nat} (hij : i < j)
    (hbody : scannedContent (log.producerPath id) =
      some (.producerPage (.leaf [firstState i, firstState j]))) :
    log.StoredProducerPage scannedContent 1
      (producerRefTo id (.leaf [firstState i, firstState j]) i j 2 0)
      (.leaf [firstState i, firstState j]) where
  body := hbody
  length := rfl
  sha := rfl
  reference := by
    refine validateProducerRef_eq_ok.mpr ⟨log.crates.namesUuid_self _ _ id, ?_, ?_, Nat.two_pos, ?_,
      Nat.zero_le _, show 2 ≤ levelCapacity 0 by decide, log.crates.jsonLength_pos _,
      fits.producerLeaf _ (by simp [pageEntries]) ?_, sha256Hex_valid _⟩
    · simp [producerRefTo]
    · simp [producerRefTo, hij.le]
    · simp only [producerRefTo]
      omega
    · simpa using ⟨(firstState_valid i).mono (by decide), (firstState_valid j).mono (by decide)⟩
  check := checkProducerPage_eq_ok.mpr (producerPageBounds_leaf.mpr ⟨by simp [pageEntries],
    by simp [firstState_valid], by simpa [Sorted, firstState] using hij, rfl, rfl, rfl, rfl⟩)
  path := rfl

private theorem producerPath_ne {id id' : Uuid} (h : id ≠ id') :
    log.producerPath id ≠ log.producerPath id' := fun heq =>
  h (log.names_disjoint (heq ▸ log.producerPath_mem id) (log.producerPath_mem id'))

theorem scanned_low : log.StoredProducerPage scannedContent 1 lowRef lowPage :=
  leaf_scanned (by decide) (if_pos rfl)

theorem scanned_high : log.StoredProducerPage scannedContent 1 highRef highPage := by
  refine leaf_scanned (by decide) ?_
  unfold scannedContent
  rw [if_neg (producerPath_ne (by decide))]
  exact if_pos rfl

theorem scanned_branch : log.StoredProducerPage scannedContent 1 scannedRef scannedPage where
  body := by
    change scannedContent (log.producerPath 2) = some (.producerPage scannedPage)
    unfold scannedContent
    rw [if_neg (producerPath_ne (by decide)), if_neg (producerPath_ne (by decide))]
    exact if_pos rfl
  length := rfl
  sha := rfl
  reference := validateProducerRef_eq_ok.mpr ⟨log.crates.namesUuid_self _ _ 2, by decide,
    by decide, by decide, by decide, by decide, show 4 ≤ levelCapacity 1 by decide,
    log.crates.jsonLength_pos _, fits.producerBranch _ (by decide)
      (by simp [scanned_low.reference, scanned_high.reference]), sha256Hex_valid _⟩
  check := checkProducerPage_eq_ok.mpr (producerPageBounds_branch.mpr ⟨by decide, by decide,
    by simpa using ⟨⟨scanned_low.reference, rfl⟩, scanned_high.reference, rfl⟩,
    by decide, rfl, rfl, rfl, by decide⟩)
  path := rfl

theorem scanned_flattened : log.Flattened scannedContent 1 scannedRef
    [firstState 0, firstState 2, firstState 5, firstState 9] :=
  .branch scanned_branch.answered
    (.leaf scanned_low.answered (.leaf scanned_high.answered .nil)) .nil

/-- A trace of the branch and its leaves, and lookups of a state and in a gap. -/
theorem directory_lookup_agrees_with_scan_branch :
    (∀ id, DoneWithin (log.producerState scannedRoot.producers id 1) 2) ∧
    DoneWithin (log.traceProducers scannedRoot ⟨[], []⟩ 3) 65 ∧
    (∃ traced, log.evaluate scannedContent (log.traceProducers scannedRoot ⟨[], []⟩ 3) =
      .ok traced) ∧
    (∀ ss, log.Flattened scannedContent 1 scannedRef ss ↔
      ss = [firstState 0, firstState 2, firstState 5, firstState 9]) ∧
    (∀ id, ∃ found,
      log.evaluate scannedContent (log.producerState scannedRoot.producers id 1) = .ok found ∧
      ∀ s, found = some s ↔
        s ∈ [firstState 0, firstState 2, firstState 5, firstState 9] ∧ s.id = id) := by
  obtain ⟨hlookup, htrace, hagree⟩ := directory_lookup_agrees_with_scan log scannedContent
    scannedRoot scannedRef ⟨[], []⟩ 3 rfl
  have htraced : ∃ traced, log.evaluate scannedContent
      (log.traceProducers scannedRoot ⟨[], []⟩ 3) = .ok traced := by
    obtain ⟨hchecked, hbranch⟩ := scanned_branch.answered
    obtain ⟨hcheckedLow, hlow⟩ := scanned_low.answered
    obtain ⟨hcheckedHigh, hhigh⟩ := scanned_high.answered
    refine ⟨⟨[], [lowRef.object, highRef.object, scannedRef.object]⟩, ?_⟩
    rw [traceProducers, scannedRoot, Option.toList_some, traceProducersLoop, evaluate_bind]
    refine bind_eq_ok.mpr ⟨⟨[], [scannedRef.object]⟩, by decide +kernel, ?_⟩
    rw [evaluate_bind]
    refine bind_eq_ok.mpr ⟨_, hbranch, ?_⟩
    -- the last child is read first
    change log.evaluate scannedContent (log.traceProducersLoop 3 1 [highRef, lowRef] _) = _
    rw [traceProducersLoop, evaluate_bind]
    refine bind_eq_ok.mpr ⟨⟨[], [highRef.object, scannedRef.object]⟩, by decide +kernel, ?_⟩
    rw [evaluate_bind]
    refine bind_eq_ok.mpr ⟨_, hhigh, ?_⟩
    change log.evaluate scannedContent (log.traceProducersLoop 3 1 [lowRef] _) = _
    rw [traceProducersLoop, evaluate_bind]
    refine bind_eq_ok.mpr ⟨⟨[], [lowRef.object, highRef.object, scannedRef.object]⟩,
      by decide +kernel, ?_⟩
    rw [evaluate_bind]
    refine bind_eq_ok.mpr ⟨_, hlow, ?_⟩
    change log.evaluate scannedContent (log.traceProducersLoop 3 1 [] _) = _
    rw [traceProducersLoop, evaluate_pure]
  obtain ⟨traced, heval⟩ := htraced
  obtain ⟨states, hflat, hsorted, hlength, hfound⟩ := hagree traced heval
  obtain rfl := (hflat _).mp scanned_flattened
  exact ⟨hlookup, htrace, ⟨traced, heval⟩, hflat, hfound⟩

end Reference

end PartitionLog

end Walstream.Log

import Walstream.Log.Producer
import Walstream.Log.IndexShape

/-!
# What the checks of the producer directory say

The directory stands for a list of producer states in increasing order of ids. This file
characterises the checks on its pages in these terms, and collects the facts about such
lists that lookup and update rest on.
-/

namespace Walstream.Log

open Interaction PartitionLog

/-! ## Sorted lists of states -/

/-- The ids increase strictly. -/
def Sorted (states : List ProducerState) : Prop := states.Pairwise fun p q => p.id < q.id

theorem idsIncrease_iff {states : List ProducerState} : idsIncrease states ↔ Sorted states := by
  unfold idsIncrease Sorted
  rw [List.isChain_iff_pairwise, List.pairwise_map]

theorem sorted_append {ps qs : List ProducerState} :
    Sorted (ps ++ qs) ↔ Sorted ps ∧ Sorted qs ∧ ∀ p ∈ ps, ∀ q ∈ qs, p.id < q.id :=
  List.pairwise_append

@[simp] theorem sorted_nil : Sorted [] := List.Pairwise.nil

theorem mem_upsert {s p : ProducerState} {ps : List ProducerState} (h : p ∈ upsert s ps) :
    p = s ∨ p ∈ ps := by
  induction ps with
  | nil => simpa [upsert] using h
  | cons q ps ih =>
    simp only [upsert] at h
    split at h
    · rcases List.mem_cons.mp h with rfl | h
      · simp
      · exact (ih h).imp_right (List.mem_cons_of_mem _)
    · split at h
      · exact (List.mem_cons.mp h).imp_right (List.mem_cons_of_mem _)
      · exact List.mem_cons.mp h

theorem mem_upsert_self (s : ProducerState) (ps : List ProducerState) : s ∈ upsert s ps := by
  induction ps with
  | nil => simp [upsert]
  | cons q ps ih =>
    simp only [upsert]
    split
    · exact List.mem_cons_of_mem _ ih
    · split <;> simp

theorem sorted_upsert (s : ProducerState) {ps : List ProducerState} (h : Sorted ps) :
    Sorted (upsert s ps) := by
  induction ps with
  | nil => simp [upsert, Sorted]
  | cons q ps ih =>
    obtain ⟨hq, hps⟩ := List.pairwise_cons.mp h
    simp only [upsert]
    -- the new state goes behind the head, replaces it, or comes first
    split
    · rename_i hlt
      refine List.pairwise_cons.mpr ⟨fun p hp => ?_, ih hps⟩
      rcases mem_upsert hp with rfl | hp
      · exact hlt
      · exact hq p hp
    · split
      · rename_i heq
        exact List.pairwise_cons.mpr ⟨fun p hp => heq ▸ hq p hp, hps⟩
      · rename_i hne hne'
        refine List.pairwise_cons.mpr ⟨fun p hp => ?_, h⟩
        rcases List.mem_cons.mp hp with rfl | hp
        · omega
        · have := hq p hp
          omega

/-- In a sorted list an id belongs to one state at most. -/
theorem Sorted.find_eq_some_iff {states : List ProducerState} (h : Sorted states) {id : Int}
    {s : ProducerState} : states.find? (·.id = id) = some s ↔ s ∈ states ∧ s.id = id := by
  induction states with
  | nil => simp
  | cons q states ih =>
    obtain ⟨hq, hrest⟩ := List.pairwise_cons.mp h
    -- ids increase, so that no state behind the head has its id
    by_cases hqid : q.id = id
    · rw [List.find?_cons_of_pos (by simpa using hqid)]
      constructor
      · intro heq
        cases heq
        exact ⟨by simp, hqid⟩
      · rintro ⟨hmem, hid⟩
        rcases List.mem_cons.mp hmem with rfl | hmem
        · rfl
        · have := hq s hmem
          omega
    · rw [List.find?_cons_of_neg (by simpa using hqid), ih hrest]
      constructor
      · rintro ⟨hmem, hid⟩
        exact ⟨List.mem_cons_of_mem q hmem, hid⟩
      · rintro ⟨hmem, hid⟩
        rcases List.mem_cons.mp hmem with rfl | hmem
        · exact absurd hid hqid
        · exact ⟨hmem, hid⟩

/-- Looking up after an update. -/
theorem find_upsert (s : ProducerState) {ps : List ProducerState} (h : Sorted ps) (id : Int) :
    (upsert s ps).find? (·.id = id) = if s.id = id then some s else ps.find? (·.id = id) := by
  induction ps with
  | nil => by_cases hid : s.id = id <;> simp [upsert, hid]
  | cons q ps ih =>
    obtain ⟨hq, hps⟩ := List.pairwise_cons.mp h
    simp only [upsert]
    -- the same three cases
    split
    · rename_i hlt
      by_cases hqid : q.id = id
      · have hne : s.id ≠ id := by omega
        simp [hqid, hne]
      · simp only [List.find?_cons, hqid, decide_false]
        exact ih hps
    · split
      · rename_i heq
        by_cases hid : s.id = id
        · simp [hid]
        · have hqid : q.id ≠ id := by omega
          simp [hid, hqid]
      · by_cases hid : s.id = id
        · simp [hid]
        · simp [hid]

theorem upsert_append_left {s : ProducerState} {ps qs : List ProducerState}
    (h : ∀ p ∈ ps, p.id < s.id) : upsert s (ps ++ qs) = ps ++ upsert s qs := by
  induction ps with
  | nil => rfl
  | cons p ps ih =>
    simp only [List.cons_append, upsert]
    rw [if_pos (h p (by simp)), ih fun q hq => h q (by simp [hq])]

theorem upsert_append_right {s : ProducerState} {ps qs : List ProducerState}
    (h : ∀ q ∈ qs, s.id < q.id) : upsert s (ps ++ qs) = upsert s ps ++ qs := by
  induction ps with
  | nil =>
    cases qs with
    | nil => rfl
    | cons q qs =>
      have := h q (by simp)
      simp only [List.nil_append, upsert]
      rw [if_neg (by omega), if_neg (by omega)]
      rfl
  | cons p ps ih =>
    simp only [List.cons_append, upsert]
    split
    · rw [ih]; rfl
    · split <;> rfl

theorem length_upsert (s : ProducerState) (ps : List ProducerState) :
    ps.length ≤ (upsert s ps).length ∧ (upsert s ps).length ≤ ps.length + 1 := by
  induction ps with
  | nil => simp [upsert]
  | cons p ps ih =>
    simp only [upsert]
    split
    · simp only [List.length_cons]; omega
    · split <;> simp

/-- Strictly increasing ids are at most as many as there are integers between them. -/
theorem Sorted.length_le {first last : ProducerState} {ps : List ProducerState}
    (h : Sorted ps) (hfirst : ps.head? = some first) (hlast : ps.getLast? = some last) :
    (ps.length : Int) ≤ last.id - first.id + 1 := by
  induction ps generalizing first with
  | nil => simp at hfirst
  | cons p ps ih =>
    obtain ⟨hp, hps⟩ := List.pairwise_cons.mp h
    simp only [List.head?_cons, Option.some.injEq] at hfirst
    subst hfirst
    cases ps with
    | nil => simp_all
    | cons q qs =>
      have hlast' : (q :: qs).getLast? = some last := by simpa using hlast
      have := ih hps rfl hlast'
      have := hp q (by simp)
      push_cast [List.length_cons] at *
      omega

/-! ## States -/

/-- The batches of a history continue one another and lie below `nextOffset`. -/
def Continues (previous : Option BatchIdentity) (batches : List BatchIdentity) : Prop :=
  (previous.toList ++ batches).IsChain fun (p b : BatchIdentity) =>
    advance p.sequence p.count = b.sequence ∧ p.baseOffset + p.count ≤ b.baseOffset

/-- A batch that passes the checks of `ProducerState::validate` on one batch. -/
structure ValidBatch (nextOffset : Int) (b : BatchIdentity) : Prop where
  sequence_nonneg : 0 ≤ b.sequence
  count_pos : 0 < b.count
  count_le : b.count ≤ maxBatchRecords
  base_nonneg : 0 ≤ b.baseOffset
  representable : b.baseOffset + b.count ≤ i64Max
  end_le : b.baseOffset + b.count ≤ nextOffset
  fingerprint : validChecksum b.fingerprint = true

/-- A state that passes `ProducerState::validate`. -/
structure ValidState (nextOffset : Int) (p : ProducerState) : Prop where
  id_nonneg : 0 ≤ p.id
  epoch_nonneg : 0 ≤ p.epoch
  nonempty : p.batches ≠ []
  length_le : p.batches.length ≤ retryBatches
  batches : ∀ b ∈ p.batches, ValidBatch nextOffset b
  continues : Continues none p.batches

private theorem validateBatches_eq_ok {nextOffset : Int} {previous : Option BatchIdentity}
    {batches : List BatchIdentity} {u : Unit} :
    ProducerState.validateBatches nextOffset previous batches = .ok u ↔
      (∀ b ∈ batches, ValidBatch nextOffset b) ∧ Continues previous batches := by
  -- over the batches, with the one before
  induction batches generalizing previous with
  | nil => rcases previous with _ | p <;> simp [ProducerState.validateBatches, Continues]
  | cons b batches ih =>
    have hchain : Continues previous (b :: batches) ↔
        (∀ p ∈ previous, advance p.sequence p.count = b.sequence ∧
          p.baseOffset + p.count ≤ b.baseOffset) ∧ Continues (some b) batches := by
      rcases previous with _ | p <;> simp [Continues]
    -- one batch: its own checks, and that it continues the one before
    simp only [ProducerState.validateBatches, bind_eq_ok, rejectIf_eq_ok, ih, hchain,
      List.forall_mem_cons]
    constructor
    · rintro ⟨_, hreject, hvalid, hcontinues⟩
      push Not at hreject
      obtain ⟨h₁, h₂, h₃, h₄, h₅, h₆, h₇, h₈⟩ := hreject
      -- the end of the batch does not overflow
      obtain ⟨sum, hsum⟩ := Option.ne_none_iff_exists'.mp h₅
      obtain ⟨hrange, -⟩ := checkedAddI64_eq_some.mp hsum
      refine ⟨⟨⟨h₁, by omega, h₃, h₄, hrange.2, h₆, by simpa using h₇⟩, hvalid⟩, ?_, hcontinues⟩
      exact fun p hp => h₈ p hp
    · rintro ⟨⟨⟨h₁, h₂, h₃, h₄, h₅, h₆, h₇⟩, hvalid⟩, hprevious, hcontinues⟩
      refine ⟨(), ?_, hvalid, hcontinues⟩
      push Not
      refine ⟨h₁, by omega, h₃, h₄, ?_, h₆, by simp [h₇], hprevious⟩
      have hsum : checkedAddI64 b.baseOffset b.count = some (b.baseOffset + b.count) :=
        checkedAddI64_eq_some.mpr ⟨⟨by unfold i64Min; omega, h₅⟩, rfl⟩
      simp [hsum]

/-- `ProducerState::validate` accepts exactly the valid states. -/
theorem validate_eq_ok {p : ProducerState} {nextOffset : Int} {u : Unit} :
    p.validate nextOffset = .ok u ↔ ValidState nextOffset p := by
  simp only [ProducerState.validate, bind_eq_ok, rejectIf_eq_ok, validateBatches_eq_ok]
  constructor
  · rintro ⟨_, hreject, hbatches, hcontinues⟩
    push Not at hreject
    exact ⟨hreject.1, hreject.2.1, hreject.2.2.1, hreject.2.2.2, hbatches, hcontinues⟩
  · rintro ⟨h₁, h₂, h₃, h₄, h₅, h₆⟩
    exact ⟨(), by push Not; exact ⟨h₁, h₂, h₃, h₄⟩, h₅, h₆⟩

/-- A history stays valid when the log grows. -/
theorem ValidState.mono {nextOffset nextOffset' : Int} {p : ProducerState}
    (h : ValidState nextOffset p) (hle : nextOffset ≤ nextOffset') : ValidState nextOffset' p where
  id_nonneg := h.id_nonneg
  epoch_nonneg := h.epoch_nonneg
  nonempty := h.nonempty
  length_le := h.length_le
  batches := fun b hb =>
    let hb := h.batches b hb
    ⟨hb.sequence_nonneg, hb.count_pos, hb.count_le, hb.base_nonneg, hb.representable,
      hb.end_le.trans hle, hb.fingerprint⟩
  continues := h.continues

namespace PartitionLog

variable {self : PartitionLog}

/-! ## References and pages -/

theorem validateProducerRef_eq_ok {r : ProducerRef} {u : Unit} :
    self.validateProducerRef r = .ok u ↔
      self.crates.namesUuid (producerNamespace self.keyPrefix self.topic self.partition) ".json"
          r.object = true ∧
        0 ≤ r.firstId ∧ r.firstId ≤ r.lastId ∧ 0 < r.count ∧
        (r.count : Int) ≤ r.lastId - r.firstId + 1 ∧ r.level ≤ maxProducerLevel ∧
        r.count ≤ levelCapacity r.level ∧ 0 < r.byteLength ∧
        r.byteLength ≤ maxManifestBytes ∧ validChecksum r.sha256 = true := by
  simp only [validateProducerRef, rejectIf_eq_ok, not_or, Bool.not_eq_false, not_lt, gt_iff_lt,
    Nat.pos_iff_ne_zero, levelCapacity]

theorem validateStates_eq_ok {nextOffset : Int} {ps : List ProducerState} {u : Unit} :
    validateStates nextOffset ps = .ok u ↔ ∀ p ∈ ps, ValidState nextOffset p := by
  induction ps with
  | nil => simp [validateStates]
  | cons p ps ih =>
    simp only [validateStates, bind_eq_ok, validate_eq_ok, ih, List.forall_mem_cons]
    exact ⟨fun ⟨_, h⟩ => h, fun h => ⟨(), h⟩⟩

/-- States under the references. -/
def statesBelow (children : List ProducerRef) : Nat := (children.map (·.count)).sum

@[simp] theorem statesBelow_cons (c : ProducerRef) (cs : List ProducerRef) :
    statesBelow (c :: cs) = c.count + statesBelow cs := by simp [statesBelow]

@[simp] theorem statesBelow_nil : statesBelow [] = 0 := rfl

theorem validateProducerChildren_eq_ok {level : Nat} {children : List ProducerRef}
    {count total : Nat} (hcount : count ≤ u64Max) :
    self.validateProducerChildren level children count = .ok total ↔
      (∀ c ∈ children, self.validateProducerRef c = .ok () ∧ c.level = level) ∧
        count + statesBelow children = total ∧ total ≤ u64Max := by
  induction children generalizing count with
  | nil =>
    simp only [validateProducerChildren, Except.ok.injEq, statesBelow_nil, List.not_mem_nil,
      false_implies, implies_true, true_and, add_zero]
    constructor
    · rintro rfl; exact ⟨rfl, hcount⟩
    · exact fun h => h.1
  | cons c cs ih =>
    simp only [validateProducerChildren, bind_eq_ok, rejectIf_eq_ok, okOr_eq_ok,
      checkedAddU64_eq_some, List.forall_mem_cons, statesBelow_cons, not_not]
    -- the sum does not overflow at the end, and so nowhere before
    constructor
    · rintro ⟨_, hvalid, sum, ⟨hsum, rfl⟩, _, hlevel, hrest⟩
      obtain ⟨hall, htotal, hle⟩ := (ih hsum).mp hrest
      exact ⟨⟨⟨hvalid, hlevel⟩, hall⟩, by omega, hle⟩
    · rintro ⟨⟨⟨hvalid, hlevel⟩, hall⟩, htotal, hle⟩
      exact ⟨(), hvalid, _, ⟨by omega, rfl⟩, (), hlevel, (ih (by omega)).mpr
        ⟨hall, by omega, hle⟩⟩

/-- What the bounds of a leaf say. -/
theorem producerPageBounds_leaf {nextOffset : Int} {ps : List ProducerState}
    {firstId lastId : Int} {count level : Nat} :
    producerPageBounds self nextOffset (.leaf ps) = .ok (firstId, lastId, count, level) ↔
      ps.length ≤ pageEntries ∧ (∀ p ∈ ps, ValidState nextOffset p) ∧ Sorted ps ∧
        (ps.head?.map (·.id)) = some firstId ∧ (ps.getLast?.map (·.id)) = some lastId ∧
        ps.length = count ∧ level = 0 := by
  simp only [producerPageBounds, bind_eq_ok, rejectIf_eq_ok, validateStates_eq_ok,
    idsIncrease_iff, not_not, not_or, not_lt, gt_iff_lt]
  cases ps with
  | nil => simp
  | cons p ps =>
    have hlast : (p :: ps).getLast? = some ((p :: ps).getLast (by simp)) :=
      List.getLast?_eq_some_getLast _
    simp only [List.head?_cons, hlast, Option.map_some, Option.some.injEq]
    constructor
    · rintro ⟨_, ⟨-, hlen⟩, _, hvalid, _, hsorted, hbounds⟩
      cases hbounds
      exact ⟨hlen, hvalid, hsorted, rfl, rfl, rfl, rfl⟩
    · rintro ⟨hlen, hvalid, hsorted, rfl, rfl, rfl, rfl⟩
      exact ⟨(), ⟨by simp, hlen⟩, (), hvalid, (), hsorted, rfl⟩

/-- What the bounds of a branch say. -/
theorem producerPageBounds_branch {nextOffset : Int} {children : List ProducerRef}
    {firstId lastId : Int} {count level : Nat} :
    producerPageBounds self nextOffset (.branch children) = .ok (firstId, lastId, count, level) ↔
      2 ≤ children.length ∧ children.length ≤ pageEntries ∧
        (∀ c ∈ children, self.validateProducerRef c = .ok () ∧ c.level + 1 = level) ∧
        rangesIncrease children ∧ (children.head?.map (·.firstId)) = some firstId ∧
        (children.getLast?.map (·.lastId)) = some lastId ∧ statesBelow children = count ∧
        count ≤ u64Max := by
  simp only [producerPageBounds, bind_eq_ok, rejectIf_eq_ok, not_or, not_lt, gt_iff_lt]
  cases children with
  | nil => simp
  | cons c cs =>
    have hlast : (c :: cs).getLast? = some ((c :: cs).getLast (by simp)) :=
      List.getLast?_eq_some_getLast _
    simp only [List.head?_cons, hlast, Option.map_some, Option.some.injEq, bind_eq_ok,
      rejectIf_eq_ok, not_not, validateProducerChildren_eq_ok (Nat.zero_le _), Nat.zero_add]
    -- all children have the level of the first one
    constructor
    · rintro ⟨_, ⟨hmin, hlen⟩, total, ⟨hall, rfl, hle⟩, _, hranges, hbounds⟩
      cases hbounds
      exact ⟨hmin, hlen, fun d hd => ⟨(hall d hd).1, by rw [(hall d hd).2]⟩, hranges, rfl, rfl,
        rfl, hle⟩
    · rintro ⟨hmin, hlen, hall, hranges, rfl, rfl, rfl, hle⟩
      have hlevel := (hall c (by simp)).2
      refine ⟨(), ⟨hmin, hlen⟩, _, ⟨fun d hd => ⟨(hall d hd).1, ?_⟩, rfl, hle⟩, (), hranges, ?_⟩
      · have := (hall d hd).2
        omega
      · simp [pure, Except.pure, hlevel]

theorem checkProducerPage_eq_ok {nextOffset : Int} {r : ProducerRef} {page : ProducerPage}
    {u : Unit} : self.checkProducerPage nextOffset r page = .ok u ↔
      self.producerPageBounds nextOffset page = .ok r.bounds := by
  simp only [checkProducerPage, bind_eq_ok, rejectIf_eq_ok, not_not, exists_eq_right]

/-- A page stays readable when the log grows. -/
theorem producerPageBounds_mono {nextOffset nextOffset' : Int} {page : ProducerPage}
    {bounds : ProducerBounds} (hle : nextOffset ≤ nextOffset')
    (h : self.producerPageBounds nextOffset page = .ok bounds) :
    self.producerPageBounds nextOffset' page = .ok bounds := by
  obtain ⟨firstId, lastId, count, level⟩ := bounds
  cases page with
  | leaf ps =>
    rw [producerPageBounds_leaf] at h ⊢
    exact ⟨h.1, fun p hp => (h.2.1 p hp).mono hle, h.2.2⟩
  | branch children =>
    rw [producerPageBounds_branch] at h ⊢
    exact h

end PartitionLog

end Walstream.Log

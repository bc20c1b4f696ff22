import Walstream.Log.ProducerShape
import Mathlib.Data.List.Chain

/-!
# What a producer's state remembers

The purpose of the producer directory, stated without it: of all batches a producer has
ever committed (`entries`), the directory keeps the current epoch and the latest few
batches of that epoch (`remembered`), and that is enough to continue the sequence without
gaps and to recognise a retry.
-/

namespace Walstream.Log

open Interaction PartitionLog

/-- One committed batch of a producer. -/
structure Entry where
  epoch : Int
  identity : BatchIdentity
  deriving DecidableEq, Repr

/-- `b` may follow `a`: it starts a later epoch with sequence 0, or continues the epoch. -/
def Entry.Follows (a b : Entry) : Prop :=
  a.epoch < b.epoch ∧ b.identity.sequence = 0 ∨
    a.epoch = b.epoch ∧ b.identity.sequence = advance a.identity.sequence a.identity.count

/-- The batches of one producer in commit order: at most once and without gaps. -/
structure Sequenced (entries : List Entry) : Prop where
  first : ∀ e ∈ entries.head?, e.identity.sequence = 0
  chain : entries.IsChain Entry.Follows

/-- The last `k` entries. -/
def lastEntries {α : Type} (k : Nat) (xs : List α) : List α := xs.drop (xs.length - k)

/-- The batches of one epoch. -/
def ofEpoch (epoch : Int) (entries : List Entry) : List BatchIdentity :=
  (entries.filter (·.epoch = epoch)).map (·.identity)

/-- What is remembered of a producer's batches: the latest five of the current epoch. -/
def remembered (id : Int) (entries : List Entry) : Option ProducerState :=
  entries.getLast?.map fun last => ⟨id, last.epoch, lastEntries retryBatches (ofEpoch last.epoch entries)⟩

section LastEntries

variable {α : Type} {xs : List α} {x : α} {k : Nat}

theorem lastEntries_length (k : Nat) (xs : List α) : (lastEntries k xs).length = min k xs.length := by
  simp only [lastEntries, List.length_drop]
  omega

theorem lastEntries_suffix (k : Nat) (xs : List α) : lastEntries k xs <:+ xs := List.drop_suffix _ _

/-- One more entry pushes the oldest one out. -/
theorem lastEntries_concat (hk : 0 < k) : lastEntries k (xs ++ [x]) =
    if (lastEntries k xs ++ [x]).length > k then (lastEntries k xs ++ [x]).drop 1
    else lastEntries k xs ++ [x] := by
  have hlen := lastEntries_length k xs
  simp only [List.length_append, List.length_singleton, hlen]
  split
  · rename_i hfull
    have hle : k ≤ xs.length := by omega
    have hdrop : xs.length + 1 - k = (xs.length - k) + 1 := by omega
    simp only [lastEntries, List.length_append, List.length_singleton, hdrop]
    rw [← List.drop_drop, List.drop_append_of_le_length (by omega)]
  · rename_i hroom
    have hle : xs.length < k := by omega
    have hzero : xs.length + 1 - k = 0 := by omega
    have hzero' : xs.length - k = 0 := by omega
    simp [lastEntries, hzero, hzero']

theorem lastEntries_getLast (hk : 0 < k) : (lastEntries k xs).getLast? = xs.getLast? := by
  rcases List.eq_nil_or_concat' xs with rfl | ⟨ys, y, rfl⟩
  · simp [lastEntries]
  · rw [lastEntries_concat hk, List.getLast?_concat]
    split
    · rename_i hlong
      rw [List.drop_append_of_le_length, List.getLast?_concat]
      simp only [List.length_append, List.length_singleton] at hlong
      omega
    · rw [List.getLast?_concat]

end LastEntries

namespace Sequenced

variable {entries : List Entry} {e : Entry}

theorem epochs_le (h : Sequenced entries) : entries.Pairwise fun a b => a.epoch ≤ b.epoch := by
  have hle : entries.IsChain fun a b => a.epoch ≤ b.epoch := h.chain.imp fun a b hab => by
    rcases hab with ⟨hlt, -⟩ | ⟨heq, -⟩
    · exact hlt.le
    · exact heq.le
  have : IsTrans Entry fun a b => a.epoch ≤ b.epoch := ⟨fun _ _ _ => le_trans⟩
  exact List.isChain_iff_pairwise.mp hle

theorem epoch_le_last {last : Entry} (h : Sequenced entries) (hlast : entries.getLast? = some last) :
    ∀ a ∈ entries, a.epoch ≤ last.epoch := by
  obtain ⟨init, rfl⟩ := List.getLast?_eq_some_iff.mp hlast
  intro a ha
  rcases List.mem_append.mp ha with ha | ha
  · exact (List.pairwise_append.mp h.epochs_le).2.2 a ha last (by simp)
  · rw [List.mem_singleton.mp ha]

theorem concat (h : Sequenced entries)
    (hnext : match entries.getLast? with
      | none => e.identity.sequence = 0
      | some last => last.Follows e) : Sequenced (entries ++ [e]) := by
  rcases List.eq_nil_or_concat' entries with rfl | ⟨init, last, rfl⟩
  · exact ⟨by simpa using hnext, List.isChain_singleton _⟩
  · rw [List.getLast?_concat] at hnext
    refine ⟨fun a ha => h.first a ?_, ?_⟩
    · simpa using ha
    · exact List.isChain_append.mpr ⟨h.chain, List.isChain_singleton _, by
        simpa using hnext⟩

end Sequenced

theorem ofEpoch_concat {epoch : Int} {entries : List Entry} {e : Entry} :
    ofEpoch epoch (entries ++ [e]) =
      ofEpoch epoch entries ++ if e.epoch = epoch then [e.identity] else [] := by
  unfold ofEpoch
  by_cases he : e.epoch = epoch <;> simp [List.filter_append, he]

/-! ## Accepting a batch -/

namespace ProducerState

variable {state state' : ProducerState} {epoch sequence nextOffset : Int} {count : Nat}
  {fingerprint : String} {result : AppendResult}

/-- The state in the epoch of the batch. -/
def enter (state : ProducerState) (epoch : Int) : ProducerState :=
  if epoch > state.epoch then { state with epoch := epoch, batches := [] } else state

/-- The state after a new batch. -/
def remember (state : ProducerState) (batch : BatchIdentity) : ProducerState :=
  { state with
    batches := if (state.batches ++ [batch]).length > retryBatches then
        (state.batches ++ [batch]).drop 1
      else state.batches ++ [batch] }

@[simp] theorem enter_id : (state.enter epoch).id = state.id := by
  unfold enter; split <;> rfl

@[simp] theorem remember_id (batch : BatchIdentity) : (state.remember batch).id = state.id := rfl

theorem enter_of_eq (h : state.epoch = epoch) : state.enter epoch = state := by
  unfold enter
  rw [if_neg (by omega)]

theorem enter_of_lt (h : state.epoch < epoch) : state.enter epoch = ⟨state.id, epoch, []⟩ := by
  unfold enter
  rw [if_pos h]

theorem enter_epoch (h : state.epoch ≤ epoch) : (state.enter epoch).epoch = epoch := by
  unfold enter
  split
  · rfl
  · omega

variable (state) in
/-- What is remembered of the past are the latest batches. -/
theorem remember_suffix (batch : BatchIdentity) :
    (state.remember batch).batches <:+ state.batches ++ [batch] := by
  unfold remember
  dsimp only
  split
  · exact List.drop_suffix _ _
  · exact List.suffix_rfl

theorem remember_ne_nil (batch : BatchIdentity) : (state.remember batch).batches ≠ [] := by
  intro hnil
  have hlength := congrArg List.length hnil
  unfold remember at hlength
  dsimp only at hlength
  split at hlength <;>
    simp only [List.length_drop, List.length_append, List.length_singleton, List.length_nil,
      retryBatches] at * <;> omega

theorem remember_length (batch : BatchIdentity) (h : state.batches.length ≤ retryBatches) :
    (state.remember batch).batches.length ≤ retryBatches := by
  unfold remember
  dsimp only
  split
  · simp only [List.length_drop, List.length_append, List.length_singleton]
    omega
  · omega

/-- The batch is one the state remembers. -/
def Recognises (state : ProducerState) (epoch sequence : Int) (count : Nat) (fingerprint : String)
    (batch : BatchIdentity) : Prop :=
  state.epoch = epoch ∧ state.batches.find? (·.sequence = sequence) = some batch ∧
    batch.count = count ∧ batch.fingerprint = fingerprint

/-- The batch is the next one of its producer. -/
def Awaits (state : ProducerState) (epoch sequence : Int) : Prop :=
  state.epoch ≤ epoch ∧ (state.epoch < epoch → sequence = 0) ∧
    (state.enter epoch).batches.find? (·.sequence = sequence) = none ∧
    sequence = (state.enter epoch).expected

/-- A batch is accepted in one of two ways: it is recognised, and nothing changes; or it
continues the sequence and is remembered. -/
theorem accept_eq_ok : state.accept epoch sequence count fingerprint nextOffset =
      .ok (state', result) ↔
    (∃ batch, state.Recognises epoch sequence count fingerprint batch ∧ state' = state ∧
        result = ⟨batch.baseOffset, batch.baseOffset + count - 1⟩) ∨
      state.Awaits epoch sequence ∧
        (i64Min ≤ nextOffset + count ∧ nextOffset + count ≤ i64Max) ∧
        state' = (state.enter epoch).remember ⟨sequence, count, nextOffset, fingerprint⟩ ∧
        result = ⟨nextOffset, nextOffset + count - 1⟩ := by
  have henter : (if epoch > state.epoch then { state with epoch := epoch, batches := [] }
      else state) = state.enter epoch := rfl
  unfold Recognises Awaits
  cases hfind : (state.enter epoch).batches.find? (·.sequence = sequence) with
  | some batch =>
    -- only the current epoch has batches to be found
    have hepoch : state.epoch ≤ epoch → state.epoch = epoch := by
      intro hle
      by_contra hne
      rw [enter_of_lt (by omega)] at hfind
      simp at hfind
    simp only [accept, henter, hfind, bind_eq_ok, rejectIf_eq_ok, not_lt, not_and, not_or, not_not,
      gt_iff_lt, pure, Except.pure, Except.ok.injEq, Prod.mk.injEq, reduceCtorEq, false_and,
      and_false, or_false]
    constructor
    · rintro ⟨_, hle, _, -, _, ⟨hcount, hfp⟩, rfl, rfl⟩
      rw [enter_of_eq (hepoch hle)] at hfind ⊢
      exact ⟨batch, ⟨hepoch hle, hfind, hcount, hfp⟩, rfl, rfl⟩
    · rintro ⟨batch', ⟨heq, hfind', hcount, hfp⟩, rfl, rfl⟩
      rw [enter_of_eq heq] at hfind ⊢
      obtain rfl : batch = batch' := Option.some.inj (hfind.symm.trans hfind')
      exact ⟨(), heq.le, (), fun hlt => absurd heq hlt.ne, (), ⟨hcount, hfp⟩, rfl, rfl⟩
  | none =>
    simp only [accept, henter, hfind, bind_eq_ok, rejectIf_eq_ok, not_lt, not_and, not_not,
      gt_iff_lt, okOr_eq_ok, checkedAddI64_eq_some, pure, Except.pure, Except.ok.injEq,
      Prod.mk.injEq]
    constructor
    · rintro ⟨_, hle, _, hzero, _, hexpected, _, ⟨hrange, rfl⟩, rfl, rfl⟩
      exact .inr ⟨⟨hle, hzero, trivial, hexpected⟩, hrange, rfl, rfl⟩
    · rintro (⟨batch, ⟨heq, hfind', -⟩, -⟩ | ⟨⟨hle, hzero, -, hexpected⟩, hrange, rfl, rfl⟩)
      · rw [enter_of_eq heq, hfind'] at hfind
        cases hfind
      · exact ⟨(), hle, (), hzero, (), hexpected, _, ⟨hrange, rfl⟩, rfl, rfl⟩

end ProducerState

/-- The state of a producer after `entries`; a new producer starts in the epoch of its first
batch. -/
def known (id epoch : Int) (entries : List Entry) : ProducerState :=
  (remembered id entries).getD (ProducerState.new id epoch)

theorem remembered_concat (id : Int) (entries : List Entry) (e : Entry) :
    remembered id (entries ++ [e]) =
      some ⟨id, e.epoch, lastEntries retryBatches (ofEpoch e.epoch entries ++ [e.identity])⟩ := by
  simp [remembered, ofEpoch_concat]

/-- **The next batch**: a batch that the remembered state awaits continues the producer's
sequence, and the state that is stored with it remembers it. -/
theorem Sequenced.awaits {id epoch : Int} {entries : List Entry} (h : Sequenced entries)
    (batch : BatchIdentity) (hawaits : (known id epoch entries).Awaits epoch batch.sequence) :
    Sequenced (entries ++ [⟨epoch, batch⟩]) ∧
      remembered id (entries ++ [⟨epoch, batch⟩]) =
        some (((known id epoch entries).enter epoch).remember batch) := by
  obtain ⟨hle, hzero, -, hexpected⟩ := hawaits
  rw [remembered_concat]
  -- the first batch of the producer
  rcases List.eq_nil_or_concat' entries with rfl | ⟨init, last, rfl⟩
  · have hknown : known id epoch [] = ⟨id, epoch, []⟩ := rfl
    rw [hknown, ProducerState.enter_of_eq rfl] at hexpected ⊢
    exact ⟨h.concat hexpected, rfl⟩
  · have hknown : known id epoch (init ++ [last]) =
        ⟨id, last.epoch, lastEntries retryBatches (ofEpoch last.epoch (init ++ [last]))⟩ := by
      simp [known, remembered]
    rw [hknown] at hle hzero hexpected ⊢
    have hlast : (init ++ [last]).getLast? = some last := List.getLast?_concat
    rcases lt_or_eq_of_le hle with hlt | heq
    · -- a later epoch starts over
      refine ⟨h.concat (by rw [hlast]; exact .inl ⟨hlt, hzero hlt⟩), ?_⟩
      rw [ProducerState.enter_of_lt hlt]
      have hnone : ofEpoch epoch (init ++ [last]) = [] := by
        unfold ofEpoch
        rw [List.map_eq_nil_iff, List.filter_eq_nil_iff]
        intro a ha
        have := h.epoch_le_last hlast a ha
        simp only [decide_eq_true_eq]
        simp only at hlt
        omega
      rw [hnone]
      rfl
    -- the same epoch goes on
    · obtain rfl : last.epoch = epoch := heq
      rw [ProducerState.enter_of_eq rfl] at hexpected ⊢
      have hexp : batch.sequence = advance last.identity.sequence last.identity.count := by
        simpa [ProducerState.expected, lastEntries_getLast (by decide : 0 < retryBatches),
          ofEpoch_concat] using hexpected
      refine ⟨h.concat (by rw [hlast]; exact .inr ⟨rfl, hexp⟩), ?_⟩
      rw [lastEntries_concat (by decide)]
      rfl

/-! ## Recognising a retry -/

/-- The sequence reached from `sequence` after some records, at most `bound` of them. -/
private theorem advance_reached {bound : Nat} {b : BatchIdentity} {batches : List BatchIdentity}
    (hcount : ∀ c ∈ b :: batches, 0 < c.count ∧ c.count ≤ bound)
    (h : Continues none (b :: batches)) :
    ∀ c ∈ batches, ∃ d : Nat, 0 < d ∧ d ≤ batches.length * bound ∧
      c.sequence = (b.sequence + d) % 2 ^ 31 := by
  induction batches generalizing b with
  | nil => simp
  | cons next batches ih =>
    obtain ⟨⟨hnext, -⟩, hrest⟩ : (advance b.sequence b.count = next.sequence ∧ _) ∧
        Continues none (next :: batches) := by simpa [Continues] using h
    have hb := hcount b (by simp)
    intro c hc
    rw [List.length_cons, Nat.succ_mul]
    rcases List.mem_cons.mp hc with rfl | hc
    · exact ⟨b.count, hb.1, by omega, hnext.symm⟩
    · obtain ⟨d, hd, hle, hseq⟩ := ih (fun c hc => hcount c (by simp [hc])) hrest c hc
      refine ⟨b.count + d, by omega, by omega, ?_⟩
      rw [hseq, ← hnext]
      unfold advance
      omega

/-- The batches that a state remembers have different sequences. -/
theorem ValidState.sequences {nextOffset : Int} {p : ProducerState} (h : ValidState nextOffset p) :
    p.batches.Pairwise fun a b => a.sequence ≠ b.sequence := by
  have key : ∀ batches : List BatchIdentity, batches.length ≤ retryBatches →
      (∀ b ∈ batches, ValidBatch nextOffset b) → Continues none batches →
      batches.Pairwise fun a b => a.sequence ≠ b.sequence := by
    intro batches
    induction batches with
    | nil => simp
    | cons b batches ih =>
      intro hlen hvalid hcontinues
      refine List.pairwise_cons.mpr ⟨fun c hc => ?_, ih ?_ ?_ ?_⟩
      -- the sequence of a later batch is that of the first, advanced by less than it takes to wrap
      · obtain ⟨d, hd, hle, hseq⟩ := advance_reached
          (fun c hc => ⟨(hvalid c hc).count_pos, (hvalid c hc).count_le⟩) hcontinues c hc
        have hnonneg := (hvalid b (by simp)).sequence_nonneg
        have hbound : batches.length * maxBatchRecords ≤ 500000 := by
          simp only [List.length_cons, retryBatches] at hlen
          simp only [maxBatchRecords]
          omega
        rw [hseq]
        omega
      · exact (Nat.le_succ _).trans hlen
      · exact fun c hc => hvalid c (by simp [hc])
      · simp only [Continues, Option.toList_none, List.nil_append] at hcontinues ⊢
        exact hcontinues.tail
  exact key p.batches h.length_le h.batches h.continues

/-- A remembered batch is found by its sequence. -/
theorem ValidState.find {nextOffset : Int} {p : ProducerState} (h : ValidState nextOffset p)
    {batch : BatchIdentity} (hmem : batch ∈ p.batches) :
    p.batches.find? (·.sequence = batch.sequence) = some batch := by
  obtain ⟨init, rest, heq⟩ := List.append_of_mem hmem
  have hpairwise := h.sequences
  rw [heq, List.pairwise_append] at hpairwise
  rw [List.find?_eq_some_iff_append]
  refine ⟨by simp, init, rest, heq, fun a ha => ?_⟩
  simpa using hpairwise.2.2 a ha batch (by simp)

end Walstream.Log

import Walstream.Log.ProducerGrowth
import Walstream.Log.Sequencing

/-!
# The decision on a request

`prepare_append` first decides, without writing anything, which batches of a request are
new. `judge` is that decision as a pure function of the directory's states; the loop of the
source computes it (`decideBatches_drafts`). A decision adds new batches end to end behind
the log (`Sound`), and moves every producer along its own sequence (`Remembers`).
-/

namespace Walstream.Log

open Interaction Tiling

namespace PartitionLog

/-! ## Admission -/

/-- What `append_batches` has checked of a batch and its fingerprint. -/
structure Admitted (log : PartitionLog) (batch : List Record × String) : Prop where
  records : validateRecords batch.1 = .ok ()
  span : validateTimestampSpan batch.1 = .ok ()
  length_le : batch.1.length ≤ maxBatchRecords
  encoded : ∃ rs bytes inspection, assignedRecords batch.1 0 = .ok rs ∧
    log.crates.encode rs = .ok bytes ∧ log.crates.inspectRecordBatches bytes = .ok inspection ∧
    inspection.batchCount = 1 ∧ inspection.recordCount = batch.1.length ∧
    bytes.length ≤ maxBatchBytes ∧ batch.2 = log.crates.sha256Hex (.raw bytes)

theorem encodeRecords_eq_ok {crates : Crates} {records : List Record} {bytes : List UInt8} :
    crates.encodeRecords records = .ok bytes ↔ crates.encode records = .ok bytes := by
  unfold Crates.encodeRecords
  cases crates.encode records <;> simp

private theorem mapM_eq_ok {α β ε : Type} {f : α → Except ε β} {xs : List α} {ys : List β}
    (h : xs.mapM f = .ok ys) : List.Forall₂ (fun x y => f x = .ok y) xs ys := by
  induction xs generalizing ys with
  | nil => cases h; exact .nil
  | cons x xs ih =>
    simp only [List.mapM_cons, bind_eq_ok, pure, Except.pure, Except.ok.injEq] at h
    obtain ⟨y, hy, zs, hzs, rfl⟩ := h
    exact .cons hy (ih hzs)

/-- The checks before the first request to the store let every batch through. -/
theorem admitBatches_eq_ok {self : PartitionLog} {batches : List (List Record)}
    {fingerprints : List String} (h : self.admitBatches batches = .ok fingerprints) :
    validateTopic self.topic = .ok () ∧ 0 ≤ self.partition ∧ batches ≠ [] ∧
      fingerprints.length = batches.length ∧
      ∀ batch ∈ batches.zip fingerprints, self.Admitted batch := by
  simp only [admitBatches, bind_eq_ok, rejectIf_eq_ok, not_lt, gt_iff_lt, pure, Except.pure,
    Except.ok.injEq] at h
  obtain ⟨_, htopic, _, hpartition, _, hne, _, htotal, inspected, hinspected, _, hbytes, rfl⟩ := h
  -- every batch was inspected
  have hall := mapM_eq_ok hinspected
  have hnonneg : 0 ≤ self.partition := by
    unfold validatePartition at hpartition
    split at hpartition
    · rename_i hrange; exact hrange.1
    · cases hpartition
  -- the batch and its fingerprint come from the same inspection
  refine ⟨htopic, hnonneg, hne, by simpa using hall.length_eq.symm, ?_⟩
  rintro ⟨records, fingerprint⟩ hmem
  rw [List.zip_map_right, List.mem_map] at hmem
  obtain ⟨⟨records', length, fingerprint'⟩, hzip, heq⟩ := hmem
  obtain ⟨rfl, rfl⟩ : records' = records ∧ fingerprint' = fingerprint := by simpa using heq
  have hinspect : self.inspectBatch records' = .ok (length, fingerprint') :=
    List.forall₂_zip hall hzip
  simp only [inspectBatch, bind_eq_ok] at hinspect
  obtain ⟨_, hrecords, _, hspan, rs, hrs, bytes, hencode, hrest⟩ := hinspect
  rw [encodeRecords_eq_ok] at hencode
  simp only [mapError_eq_ok, rejectIf_eq_ok, pure, Except.pure, Except.ok.injEq, Prod.mk.injEq,
    not_or, not_not] at hrest
  obtain ⟨inspection, hinspection, _, ⟨hone, hcount⟩, hlength, hsha⟩ := hrest
  refine ⟨hrecords, hspan, ?_, rs, bytes, inspection, hrs, hencode, hinspection, hone, hcount, ?_,
    hsha.symm⟩
  -- one batch is no larger than all of them
  · have := List.single_le_sum (l := batches.map List.length) (fun _ _ => Nat.zero_le _)
      _ (List.mem_map_of_mem (List.of_mem_zip hzip).1)
    exact this.trans htotal
  · have := List.single_le_sum (l := inspected.map Prod.fst) (fun _ _ => Nat.zero_le _)
      _ (List.mem_map_of_mem (List.of_mem_zip hzip).2)
    rw [hlength]
    exact this.trans hbytes

namespace Admitted

variable {log : PartitionLog} {first : Record} {rest : List Record} {fingerprint : String}

theorem ne_nil {batch : List Record × String} (h : log.Admitted batch) : batch.1 ≠ [] := by
  intro hnil
  have := h.records
  rw [hnil] at this
  cases this

theorem checksum {batch : List Record × String} (h : log.Admitted batch) :
    validChecksum batch.2 = true := by
  obtain ⟨_, bytes, _, -, -, -, -, -, -, hsha⟩ := h.encoded
  rw [hsha]
  exact log.crates.sha256Hex_valid _

/-- A producer's epoch and sequence are not negative. -/
theorem identity (h : log.Admitted (first :: rest, fingerprint)) (hid : 0 ≤ first.producerId) :
    0 ≤ first.producerEpoch ∧ 0 ≤ first.sequence := by
  have hrecords := h.records
  simp only [validateRecords, bind_eq_ok, rejectIf_eq_ok, not_exists, not_and] at hrecords
  obtain ⟨_, hunsupported, hidentity⟩ := hrecords
  have := hunsupported first (by simp)
  simp only [Record.unsupported, not_or, not_and, not_lt] at this
  refine ⟨this.2.2.2.2.2 hid, ?_⟩
  have := hidentity hid
  push Not at this
  exact this.1

end Admitted

/-! ## The pure decision -/

/-- What is known of a producer: the request's own snapshot, else the directory's. -/
def Decision.find (d : Decision) (ss : List ProducerState) (id : Int) : Option ProducerState :=
  (d.states.find? (·.id = id)).or (ss.find? (·.id = id))

/-- The state against which a batch is judged. -/
def Decision.stateFor (d : Decision) (ss : List ProducerState) (first : Record) : ProducerState :=
  (d.find ss first.producerId).getD (ProducerState.new first.producerId first.producerEpoch)

/-- The decision on one batch, given the states of the directory. -/
def judgeBatch (ss : List ProducerState) (batch : List Record × String) (d : Decision) :
    Except LogError Decision :=
  match batch.1 with
  | [] => .error .emptyBatch
  | first :: _ =>
    if first.producerId ≥ 0 then do
      let (state, result) ← (d.stateFor ss first).accept first.producerEpoch first.sequence
        batch.1.length batch.2 d.nextOffset
      return d.record batch.1 (upsert state d.states) result
    else do
      let result ← anonymousResult d.nextOffset batch.1.length
      return d.record batch.1 d.states result

/-- The decision on a request, given the states of the directory. -/
def judge (ss : List ProducerState) :
    List (List Record × String) → Decision → Except LogError Decision
  | [], d => .ok d
  | batch :: batches, d => do judge ss batches (← judgeBatch ss batch d)

/-- Before the first batch. -/
def Decision.start (nextOffset : Int) : Decision := ⟨nextOffset, [], [], []⟩

section Loop

variable {self : PartitionLog} {n : Notes Body} {root : Option ProducerRef} {os : List String}
  {ss : List ProducerState} {initialOffset : Int}

private theorem producerSnapshot_drafts {d : Decision} {first : Record}
    (h : self.Directory n.content initialOffset root os ss) :
    self.Drafts (self.producerSnapshot root initialOffset d.states first) n
      (fun state n' => state = d.stateFor ss first ∧ n' = n) (fun _ => False) := by
  unfold producerSnapshot Decision.stateFor Decision.find
  cases d.states.find? (·.id = first.producerId) with
  | some state => exact drafting_pure ⟨rfl, rfl⟩
  | none =>
    refine drafting_bind (producerState_drafts h
      (Q := fun known n' => known = ss.find? (·.id = first.producerId) ∧ n' = n) ⟨rfl, rfl⟩) ?_
    rintro known n' - ⟨rfl, rfl⟩
    exact drafting_pure ⟨rfl, rfl⟩

private theorem decideBatch_drafts {batch : List Record × String} {d : Decision}
    (h : self.Directory n.content initialOffset root os ss) :
    self.Drafts (self.decideBatch root initialOffset batch d) n
      (fun d' n' => judgeBatch ss batch d = .ok d' ∧ n' = n)
      (fun x => judgeBatch ss batch d = .error x) := by
  obtain ⟨_ | ⟨first, rest⟩, fingerprint⟩ := batch
  · exact drafting_throw rfl
  · unfold decideBatch judgeBatch
    dsimp only
    split
    · refine drafting_bind (drafting_mono (producerSnapshot_drafts h) (fun _ _ _ h => h)
        fun _ => False.elim) ?_
      rintro state n' - ⟨rfl, hn⟩
      subst hn
      refine drafts_check_bind (fun out hout => drafting_pure ⟨?_, rfl⟩) fun x hx => ?_
      · rw [hout]; rfl
      · rw [hx]; rfl
    · refine drafts_check_bind (fun out hout => drafting_pure ⟨?_, rfl⟩) fun x hx => ?_
      · rw [hout]; rfl
      · rw [hx]; rfl

/-- The decision phase computes `judge` and leaves everything as it is. -/
theorem decideBatches_drafts {batches : List (List Record × String)} {d : Decision}
    (h : self.Directory n.content initialOffset root os ss) :
    self.Drafts (self.decideBatches root initialOffset batches d) n
      (fun d' n' => judge ss batches d = .ok d' ∧ n' = n)
      (fun x => judge ss batches d = .error x) := by
  induction batches generalizing d with
  | nil => exact drafting_pure ⟨rfl, rfl⟩
  | cons batch batches ih =>
    unfold decideBatches
    refine drafting_bind (drafting_mono (decideBatch_drafts h) (fun _ _ _ h => h) fun x hx => ?_) ?_
    · simp [judge, hx, bind, Except.bind]
    · rintro d' n' - ⟨hd', hn⟩
      subst hn
      have hjudge : judge ss (batch :: batches) d = judge ss batches d' := by
        simp [judge, hd', bind, Except.bind]
      rw [hjudge]
      exact ih

end Loop

/-! ## The three outcomes -/

/-- The next batch is new. -/
def Decision.add (d : Decision) (records : List Record) (states : List ProducerState) : Decision :=
  ⟨d.nextOffset + records.length, states, d.additions ++ [(records, d.nextOffset)],
    d.results ++ [⟨d.nextOffset, d.nextOffset + records.length - 1⟩]⟩

theorem Decision.le_add (d : Decision) (records : List Record) (states : List ProducerState) :
    d.nextOffset ≤ (d.add records states).nextOffset := by
  simp only [Decision.add]
  omega

/-- The next batch was committed before. -/
def Decision.repeat (d : Decision) (count : Nat) (batch : BatchIdentity)
    (states : List ProducerState) : Decision :=
  ⟨d.nextOffset, states, d.additions,
    d.results ++ [⟨batch.baseOffset, batch.baseOffset + count - 1⟩]⟩

/-- The offsets end in the range of `i64`. -/
def Decision.Room (d : Decision) (count : Nat) : Prop :=
  i64Min ≤ d.nextOffset + count ∧ d.nextOffset + count ≤ i64Max

/-- The ways in which one batch is decided. -/
inductive Judged (ss : List ProducerState) (d : Decision) :
    List Record × String → Decision → Prop where
  | anonymous {first : Record} {rest : List Record} {fingerprint : String}
      (hid : first.producerId < 0) (hroom : d.Room (first :: rest).length) :
      Judged ss d (first :: rest, fingerprint) (d.add (first :: rest) d.states)
  | repeated {first : Record} {rest : List Record} {fingerprint : String} {batch : BatchIdentity}
      (hid : 0 ≤ first.producerId)
      (h : (d.stateFor ss first).Recognises first.producerEpoch first.sequence
        (first :: rest).length fingerprint batch) :
      Judged ss d (first :: rest, fingerprint)
        (d.repeat (first :: rest).length batch (upsert (d.stateFor ss first) d.states))
  | continued {first : Record} {rest : List Record} {fingerprint : String}
      (hid : 0 ≤ first.producerId)
      (h : (d.stateFor ss first).Awaits first.producerEpoch first.sequence)
      (hroom : d.Room (first :: rest).length) :
      Judged ss d (first :: rest, fingerprint) (d.add (first :: rest)
        (upsert (((d.stateFor ss first).enter first.producerEpoch).remember
          ⟨first.sequence, (first :: rest).length, d.nextOffset, fingerprint⟩) d.states))

/-- Everything that is remembered lies below the next offset. -/
def Decision.Past (d : Decision) (ss : List ProducerState) : Prop :=
  ∀ id state, d.find ss id = some state → ∀ b ∈ state.batches, b.baseOffset < d.nextOffset

theorem Decision.Past.stateFor {ss : List ProducerState} {d : Decision} (h : d.Past ss)
    (first : Record) : ∀ b ∈ (d.stateFor ss first).batches, b.baseOffset < d.nextOffset := by
  unfold Decision.stateFor
  cases hfind : d.find ss first.producerId with
  | some state => exact h _ _ hfind
  | none => simp [ProducerState.new]

/-- A batch that is given the next offset is new: a committed one lies before it. -/
theorem judgeBatch_eq_ok {ss : List ProducerState} {batch : List Record × String}
    {d d' : Decision} (hpast : d.Past ss) :
    judgeBatch ss batch d = .ok d' ↔ Judged ss d batch d' := by
  -- an empty batch is not judged
  obtain ⟨_ | ⟨first, rest⟩, fingerprint⟩ := batch
  · constructor
    · intro h; cases h
    · intro h; cases h
  unfold judgeBatch
  dsimp only
  constructor
  · split
    -- a batch with a producer is accepted by the state of that producer
    · rename_i hid
      simp only [bind_eq_ok, Prod.exists, ProducerState.accept_eq_ok]
      rintro ⟨state, result, ⟨b, hrec, rfl, rfl⟩ | ⟨hawaits, hroom, rfl, rfl⟩, hd'⟩
      -- the batch is a recent one, which ends before the next offset
      · have hlt := hpast.stateFor first b (List.mem_of_find?_eq_some hrec.2.1)
        cases hd'
        simp only [Decision.record, if_neg hlt.ne]
        exact .repeated hid hrec
      · cases hd'
        simp only [Decision.record, if_pos]
        rw [Int.sub_add_cancel]
        exact .continued hid hawaits hroom
    -- a batch without a producer is always new
    · rename_i hid
      simp only [bind_eq_ok, anonymousResult, okOr_eq_ok, checkedAddI64_eq_some, pure,
        Except.pure, Except.ok.injEq]
      rintro ⟨result, ⟨_, ⟨hroom, rfl⟩, rfl⟩, rfl⟩
      simp only [Decision.record, if_pos]
      rw [Int.sub_add_cancel]
      exact .anonymous (by omega) hroom
  -- the three ways of being judged, the other way round
  · rintro (⟨hid, hroom⟩ | @⟨_, _, _, b, hid, hrec⟩ | ⟨hid, hawaits, hroom⟩)
    · rw [if_neg (by omega)]
      simp only [bind_eq_ok, anonymousResult, okOr_eq_ok, checkedAddI64_eq_some]
      refine ⟨_, ⟨_, ⟨hroom, rfl⟩, rfl⟩, ?_⟩
      simp [Decision.record, Decision.add, pure, Except.pure]
    · rw [if_pos hid]
      have hlt := hpast.stateFor first b (List.mem_of_find?_eq_some hrec.2.1)
      simp only [bind_eq_ok, Prod.exists, ProducerState.accept_eq_ok]
      refine ⟨_, _, .inl ⟨b, hrec, rfl, rfl⟩, ?_⟩
      simp [Decision.record, Decision.repeat, hlt.ne, pure, Except.pure]
    · rw [if_pos hid]
      simp only [bind_eq_ok, Prod.exists, ProducerState.accept_eq_ok]
      refine ⟨_, _, .inr ⟨hawaits, hroom, rfl, rfl⟩, ?_⟩
      simp [Decision.record, Decision.add, pure, Except.pure]

/-! ## What a decision keeps -/

/-- The new batches lie end to end. -/
abbrev AdditionTiles : List (List Record × Int) → Int → Int → Prop :=
  Tiles Prod.snd fun addition => addition.2 + addition.1.length

/-- A decision on top of a directory `ss` of a log that ends at `start`. -/
structure Decision.Sound (ss : List ProducerState) (start : Int) (d : Decision) : Prop where
  sorted : Sorted d.states
  valid : ∀ p ∈ d.states, ValidState d.nextOffset p
  ids : IdsFit d.states
  tiles : AdditionTiles d.additions start d.nextOffset
  fits : d.nextOffset ≤ i64Max

variable {ss : List ProducerState} {start : Int} {d d' : Decision}

theorem Decision.sound_start (hstart : start ≤ i64Max) : (Decision.start start).Sound ss start where
  sorted := .nil
  valid := by simp [Decision.start]
  ids := by simp [IdsFit, Decision.start]
  tiles := rfl
  fits := hstart

/-- Every known state is valid. -/
theorem Decision.Sound.find (h : d.Sound ss start) (hss : ∀ p ∈ ss, ValidState start p) {id : Int}
    {state : ProducerState} (hfind : d.find ss id = some state) :
    ValidState d.nextOffset state ∧ state.id = id := by
  rcases Option.or_eq_some_iff.mp hfind with hown | ⟨-, hstored⟩
  · exact ⟨h.valid state (List.mem_of_find?_eq_some hown), by simpa using List.find?_some hown⟩
  · exact ⟨(hss state (List.mem_of_find?_eq_some hstored)).mono h.tiles.le,
      by simpa using List.find?_some hstored⟩

theorem Decision.Sound.past (h : d.Sound ss start) (hss : ∀ p ∈ ss, ValidState start p) :
    d.Past ss := by
  intro id state hfind b hb
  have hvalid := (h.find hss hfind).1.batches b hb
  have := hvalid.end_le
  have := hvalid.count_pos
  omega

theorem Decision.Sound.stateFor (h : d.Sound ss start) (hss : ∀ p ∈ ss, ValidState start p)
    (first : Record) : (d.stateFor ss first).id = first.producerId ∧
      (d.stateFor ss first = ProducerState.new first.producerId first.producerEpoch ∨
        ValidState d.nextOffset (d.stateFor ss first)) := by
  unfold Decision.stateFor
  cases hfind : d.find ss first.producerId with
  | none => exact ⟨rfl, .inl rfl⟩
  | some state =>
    obtain ⟨hvalid, hid⟩ := h.find hss hfind
    exact ⟨hid, .inr hvalid⟩

/-- A state that remembers a new batch is valid behind that batch. -/
theorem ValidState.remember {state : ProducerState} {nextOffset epoch : Int} (batch : BatchIdentity)
    (hstate : state.batches = [] ∨ ValidState nextOffset state) (hid : 0 ≤ state.id)
    (hepoch : 0 ≤ epoch) (hawaits : state.Awaits epoch batch.sequence)
    (hbase : batch.baseOffset = nextOffset)
    (hbatch : ValidBatch (nextOffset + batch.count) batch) :
    ValidState (nextOffset + batch.count) ((state.enter epoch).remember batch) := by
  obtain ⟨hle, -, -, hexpected⟩ := hawaits
  -- what is left of the history in the new epoch
  have hhistory : ((state.enter epoch).batches.length ≤ retryBatches) ∧
      (∀ b ∈ (state.enter epoch).batches, ValidBatch nextOffset b) ∧
      Continues none (state.enter epoch).batches := by
    rcases lt_or_eq_of_le hle with hlt | heq
    · simp [ProducerState.enter_of_lt hlt, Continues]
    · rw [ProducerState.enter_of_eq heq]
      rcases hstate with hnil | hvalid
      · simp [hnil, Continues]
      · exact ⟨hvalid.length_le, hvalid.batches, hvalid.continues⟩
  have hepochEq := ProducerState.enter_epoch hle
  obtain ⟨hlength, hvalid, hcontinues⟩ := hhistory
  generalize hentered : state.enter epoch = entered at *
  have hcount := hbatch.count_pos
  have hall : ∀ b ∈ entered.batches ++ [batch], ValidBatch (nextOffset + batch.count) b := by
    intro b hb
    rcases List.mem_append.mp hb with hb | hb
    · obtain ⟨h₁, h₂, h₃, h₄, h₅, h₆, h₇⟩ := hvalid b hb
      exact ⟨h₁, h₂, h₃, h₄, h₅, by omega, h₇⟩
    · rwa [List.mem_singleton.mp hb]
  have hchain : Continues none (entered.batches ++ [batch]) := by
    simp only [Continues, Option.toList_none, List.nil_append] at hcontinues ⊢
    refine List.isChain_append.mpr ⟨hcontinues, .singleton _, ?_⟩
    intro last hlast b hb
    obtain rfl : batch = b := by simpa using hb
    have hlastValid := hvalid last (List.mem_of_getLast? hlast)
    refine ⟨?_, hbase ▸ hlastValid.end_le⟩
    rw [hexpected, ProducerState.expected, Option.mem_def.mp hlast]
  have hsuffix := ProducerState.remember_suffix entered batch
  refine ⟨?_, ?_, ProducerState.remember_ne_nil batch, ProducerState.remember_length batch hlength,
    fun b hb => hall b (hsuffix.mem hb), ?_⟩
  · rw [← hentered]
    simpa using hid
  · change 0 ≤ entered.epoch
    rwa [hepochEq]
  · simp only [Continues, Option.toList_none, List.nil_append] at hchain ⊢
    exact hchain.suffix hsuffix

/-- One batch keeps the decision sound. -/
theorem Judged.sound {log : PartitionLog} {batch : List Record × String}
    (hjudged : Judged ss d batch d') (hbatch : log.Admitted batch) (h : d.Sound ss start)
    (hss : ∀ p ∈ ss, ValidState start p) (hstart : 0 ≤ start) :
    d'.Sound ss start := by
  have hpast := h.tiles.le
  have hlength := hbatch.length_le
  have hpos : 0 < batch.1.length := List.length_pos_iff.mpr hbatch.ne_nil
  -- a new batch goes behind the others
  have hadd : ∀ records : List Record, records.length = batch.1.length → d.Room records.length →
      AdditionTiles (d.additions ++ [(records, d.nextOffset)]) start
        (d.nextOffset + records.length) ∧ d.nextOffset + records.length ≤ i64Max := by
    intro records hrecords hroom
    refine ⟨h.tiles.append ⟨rfl, ?_, rfl⟩, hroom.2⟩
    simp only
    omega
  cases hjudged with
  | anonymous hid hroom =>
    obtain ⟨htiles, hfits⟩ := hadd _ rfl hroom
    exact ⟨h.sorted, fun p hp => (h.valid p hp).mono (d.le_add _ _), h.ids, htiles, hfits⟩
  | @repeated first rest fingerprint b hid hrec =>
    obtain ⟨hstateId, hnew | hvalid⟩ := h.stateFor hss first
    · have := hrec.2.1
      rw [hnew] at this
      simp [ProducerState.new] at this
    · refine ⟨sorted_upsert _ h.sorted, fun p hp => ?_, fun p hp => ?_, h.tiles, h.fits⟩
      · rcases mem_upsert hp with rfl | hp
        · exact hvalid
        · exact h.valid p hp
      · rcases mem_upsert hp with rfl | hp
        · rw [hstateId]; exact first.producerId_i64
        · exact h.ids p hp
  | @continued first rest fingerprint hid hawaits hroom =>
    obtain ⟨htiles, hfits⟩ := hadd _ rfl hroom
    obtain ⟨hstateId, hstate⟩ := h.stateFor hss first
    obtain ⟨hepoch, hsequence⟩ := hbatch.identity hid
    have hremember := ValidState.remember
      ⟨first.sequence, (first :: rest).length, d.nextOffset, fingerprint⟩
      (hstate.imp (fun hnew => by rw [hnew]; rfl) id) (hstateId ▸ hid) hepoch hawaits rfl
      ⟨hsequence, hpos, hlength, hstart.trans hpast, hroom.2, le_rfl, hbatch.checksum⟩
    refine ⟨sorted_upsert _ h.sorted, fun p hp => ?_, fun p hp => ?_, htiles, hfits⟩
    · rcases mem_upsert hp with rfl | hp
      · exact hremember
      · exact (h.valid p hp).mono (d.le_add _ _)
    · rcases mem_upsert hp with rfl | hp
      · simpa [hstateId] using first.producerId_i64
      · exact h.ids p hp

/-- What every decision on a batch of the request keeps, the decision on the request keeps. -/
theorem judge_rule {P : Decision → Prop} {batches : List (List Record × String)}
    (hpast : ∀ d, P d → d.Past ss)
    (hstep : ∀ batch ∈ batches, ∀ d d', P d → Judged ss d batch d' → P d')
    (hd : P d) (h : judge ss batches d = .ok d') : P d' := by
  induction batches generalizing d with
  | nil => cases h; exact hd
  | cons batch batches ih =>
    simp only [judge, bind_eq_ok] at h
    obtain ⟨d₁, hone, hrest⟩ := h
    have hjudged := (judgeBatch_eq_ok (hpast d hd)).mp hone
    exact ih (fun b hb => hstep b (List.mem_cons_of_mem _ hb))
      (hstep batch List.mem_cons_self d d₁ hd hjudged) hrest

/-- A decision is sound. -/
theorem judge_sound {log : PartitionLog} {batches : List (List Record × String)}
    (hbatches : ∀ batch ∈ batches, log.Admitted batch) (hss : ∀ p ∈ ss, ValidState start p)
    (hstart : 0 ≤ start) (hfits : start ≤ i64Max)
    (h : judge ss batches (.start start) = .ok d) : d.Sound ss start :=
  judge_rule (fun _ hd => hd.past hss)
    (fun batch hbatch _ _ hd hjudged => hjudged.sound (hbatches batch hbatch) hd hss hstart)
    (Decision.sound_start hfits) h

/-- The new batches are batches of the request. -/
theorem judge_additions {log : PartitionLog} {batches : List (List Record × String)}
    (hbatches : ∀ batch ∈ batches, log.Admitted batch) (hss : ∀ p ∈ ss, ValidState start p)
    (hstart : 0 ≤ start) (hfits : start ≤ i64Max)
    (h : judge ss batches (.start start) = .ok d) :
    ∀ addition ∈ d.additions, ∃ fingerprint, (addition.1, fingerprint) ∈ batches := by
  refine (judge_rule (P := fun d => d.Sound ss start ∧
    ∀ addition ∈ d.additions, ∃ fingerprint, (addition.1, fingerprint) ∈ batches)
    (fun _ hd => hd.1.past hss) ?_ ⟨Decision.sound_start hfits, by simp [Decision.start]⟩ h).2
  rintro batch hbatch d d' ⟨hsound, hadditions⟩ hjudged
  refine ⟨hjudged.sound (hbatches batch hbatch) hsound hss hstart, ?_⟩
  -- at most the batch itself is added
  have hadd : ∀ addition ∈ d.additions ++ [(batch.1, d.nextOffset)],
      ∃ fingerprint, (addition.1, fingerprint) ∈ batches := by
    intro addition hmem
    rcases List.mem_append.mp hmem with hmem | hmem
    · exact hadditions addition hmem
    · rw [List.mem_singleton.mp hmem]
      exact ⟨batch.2, hbatch⟩
  cases hjudged with
  | anonymous => exact hadd
  | repeated => exact hadditions
  | continued => exact hadd

/-! ## The producers' sequences -/

/-- The fingerprint of a batch: the digest of its encoding at offset 0. -/
def fingerprintOf (log : PartitionLog) (records : List Record) : String :=
  match (assignedRecords records 0).toOption.bind fun rs => (log.crates.encode rs).toOption with
  | some bytes => log.crates.sha256Hex (.raw bytes)
  | none => ""

theorem Admitted.fingerprint {log : PartitionLog} {batch : List Record × String}
    (h : log.Admitted batch) : log.fingerprintOf batch.1 = batch.2 := by
  obtain ⟨rs, bytes, _, hrs, hbytes, -, -, -, -, hsha⟩ := h.encoded
  simp [fingerprintOf, hrs, hbytes, Except.toOption, hsha]

/-- The entry that a committed batch makes in the history of a producer. -/
def entryOf (log : PartitionLog) (id : Int) (commit : List Record × Int) : Option Entry :=
  match commit.1 with
  | [] => none
  | first :: _ =>
    if first.producerId = id then
      some ⟨first.producerEpoch,
        ⟨first.sequence, commit.1.length, commit.2, log.fingerprintOf commit.1⟩⟩
    else none

/-- The batches of a producer among the committed ones, in commit order. -/
def entriesOf (log : PartitionLog) (id : Int) (commits : List (List Record × Int)) : List Entry :=
  commits.filterMap (log.entryOf id)

theorem entriesOf_append (log : PartitionLog) (id : Int) (xs ys : List (List Record × Int)) :
    log.entriesOf id (xs ++ ys) = log.entriesOf id xs ++ log.entriesOf id ys :=
  List.filterMap_append

/-- Every producer's committed batches are in sequence, and `find` knows what is to be
remembered of them. -/
def Remembers (log : PartitionLog) (find : Int → Option ProducerState)
    (commits : List (List Record × Int)) : Prop :=
  ∀ id, 0 ≤ id → Sequenced (log.entriesOf id commits) ∧
    find id = remembered id (log.entriesOf id commits)

variable {log : PartitionLog} {commits : List (List Record × Int)}

private theorem find_upsert_states {state : ProducerState} (h : d.Sound ss start) (id : Int)
    (d' : Decision) (hd' : d'.states = upsert state d.states) :
    d'.find ss id = if state.id = id then some state else d.find ss id := by
  unfold Decision.find
  rw [hd', find_upsert _ h.sorted]
  split <;> simp

/-- One batch keeps every producer in sequence. -/
theorem Judged.remembers {batch : List Record × String} (hjudged : Judged ss d batch d')
    (hbatch : log.Admitted batch) (hsound : d.Sound ss start)
    (hss : ∀ p ∈ ss, ValidState start p)
    (h : log.Remembers (d.find ss) (commits ++ d.additions)) :
    log.Remembers (d'.find ss) (commits ++ d'.additions) := by
  cases hjudged with
  | @anonymous first rest _ hid hroom =>
    intro id hnonneg
    have hnone : log.entryOf id (first :: rest, d.nextOffset) = none := by
      simp only [entryOf]
      rw [if_neg (by omega)]
    have hentries : log.entriesOf id (commits ++ (d.add (first :: rest) d.states).additions) =
        log.entriesOf id (commits ++ d.additions) := by
      simp [Decision.add, entriesOf, hnone]
    rw [hentries]
    exact h id hnonneg
  | @repeated first rest fingerprint b hid hrec =>
    intro id hnonneg
    obtain ⟨hseq, hfind⟩ := h id hnonneg
    refine ⟨hseq, ?_⟩
    rw [find_upsert_states hsound id _ rfl]
    split
    · rename_i heq
      rw [← heq, (hsound.stateFor hss first).1] at hfind ⊢
      refine Eq.trans ?_ hfind
      -- a recognised batch belongs to a known producer
      unfold Decision.stateFor
      cases hknown : d.find ss first.producerId with
      | some state => rfl
      | none =>
        have := hrec.2.1
        simp [Decision.stateFor, hknown, ProducerState.new] at this
    · exact hfind
  | @continued first rest fingerprint hid hawaits hroom =>
    intro id hnonneg
    obtain ⟨hseq, hfind⟩ := h id hnonneg
    have hadditions : (d.add (first :: rest) (upsert (((d.stateFor ss first).enter
        first.producerEpoch).remember ⟨first.sequence, (first :: rest).length, d.nextOffset,
          fingerprint⟩) d.states)).additions = d.additions ++ [(first :: rest, d.nextOffset)] := rfl
    rw [find_upsert_states hsound id _ rfl, hadditions, ← List.append_assoc, entriesOf_append]
    simp only [ProducerState.remember_id, ProducerState.enter_id, (hsound.stateFor hss first).1]
    by_cases heq : first.producerId = id
    · subst heq
      have hstate : d.stateFor ss first = known first.producerId first.producerEpoch
          (log.entriesOf first.producerId (commits ++ d.additions)) := by
        simp only [Decision.stateFor, hfind, known]
      have hentry : log.entriesOf first.producerId [(first :: rest, d.nextOffset)] =
          [⟨first.producerEpoch, ⟨first.sequence, (first :: rest).length, d.nextOffset,
            fingerprint⟩⟩] := by
        have hfp := hbatch.fingerprint
        simp only at hfp
        simp [entriesOf, entryOf, hfp]
      rw [hstate] at hawaits ⊢
      rw [hentry, if_pos rfl]
      obtain ⟨hseq', hremembered⟩ := hseq.awaits
        ⟨first.sequence, (first :: rest).length, d.nextOffset, fingerprint⟩ hawaits
      exact ⟨hseq', hremembered.symm⟩
    · have hentry : log.entriesOf id [(first :: rest, d.nextOffset)] = [] := by
        simp [entriesOf, entryOf, heq]
      rw [hentry, if_neg heq, List.append_nil]
      exact ⟨hseq, hfind⟩

/-- The directory after the request. -/
def Decision.directory (d : Decision) (ss : List ProducerState) : List ProducerState :=
  d.states.foldl (fun ss state => upsert state ss) ss

theorem find_foldl_upsert {states : List ProducerState} (hss : Sorted ss) (hstates : Sorted states)
    (id : Int) : (states.foldl (fun ss state => upsert state ss) ss).find? (·.id = id) =
      (states.find? (·.id = id)).or (ss.find? (·.id = id)) := by
  induction states generalizing ss with
  | nil => simp
  | cons state states ih =>
    obtain ⟨hlt, hstates⟩ := List.pairwise_cons.mp hstates
    rw [List.foldl_cons, ih (sorted_upsert _ hss) hstates, find_upsert _ hss]
    by_cases heq : state.id = id
    · have hnone : states.find? (·.id = id) = none := by
        rw [List.find?_eq_none]
        intro p hp
        have := hlt p hp
        simp only [decide_eq_true_eq]
        omega
      simp [heq, hnone]
    · simp [heq]

/-- **Idempotence of a request**: when the directory remembers what is to be remembered of
the committed batches, then so does the directory after the request, with the request's
new batches. -/
theorem judge_remembers {batches : List (List Record × String)}
    (hbatches : ∀ batch ∈ batches, log.Admitted batch) (hss : ∀ p ∈ ss, ValidState start p)
    (hsorted : Sorted ss) (hstart : 0 ≤ start) (hfits : start ≤ i64Max)
    (hremembers : log.Remembers (fun id => ss.find? (·.id = id)) commits)
    (h : judge ss batches (.start start) = .ok d) :
    log.Remembers (fun id => (d.directory ss).find? (·.id = id)) (commits ++ d.additions) := by
  have hend := judge_rule (P := fun d => d.Sound ss start ∧
    log.Remembers (d.find ss) (commits ++ d.additions)) (fun _ hd => hd.1.past hss)
    (fun batch hbatch d d' hd hjudged =>
      ⟨hjudged.sound (hbatches batch hbatch) hd.1 hss hstart,
        hjudged.remembers (hbatches batch hbatch) hd.1 hss hd.2⟩)
    ⟨Decision.sound_start hfits, fun id hid => by
      simpa [Decision.start, Decision.find] using hremembers id hid⟩ h
  intro id hid
  have := hend.2 id hid
  rwa [Decision.find, ← find_foldl_upsert hsorted hend.1.sorted] at this

end PartitionLog

end Walstream.Log

import Walstream.Log.AtMostOnce
import Walstream.Log.Inquiries
import Walstream.Log.Upgrades

/-!
# Retries

A producer that does not know what became of a request sends it again. What it is told then is
taken from the producer directory, so it is what the log says.

- `StandsFor`: the committed batch that stands for a batch of a request.
- `Service.acknowledgements_located`: an acknowledged request names the offsets at which its
  batches are committed.
- `Service.retries_recognized`: a retry of batches that are remembered writes nothing. It is
  answered with the offsets of the first time, or as a conflict when a batch has changed.
-/

namespace Walstream.Log

open Interaction PartitionLog Scene

/-! ## Lists -/

section Lists

variable {α β γ : Type} {R : α → γ → Prop}

/-- A relation to the first components of pairs. -/
theorem forall₂_zip_iff {as : List α} {bs : List β} {cs : List γ} (h : as.length = bs.length) :
    List.Forall₂ (fun p c => R p.1 c) (as.zip bs) cs ↔ List.Forall₂ R as cs := by
  rw [← List.forall₂_map_left_iff (f := Prod.fst), List.map_fst_zip h.le]

end Lists

/-! ## Originals -/

/-- The batches have the same place in the sequence of the same producer. -/
def Coincide : List Record → List Record → Prop
  | first :: _, first' :: _ => 0 ≤ first.producerId ∧ first'.producerId = first.producerId ∧
      first'.producerEpoch = first.producerEpoch ∧ first'.sequence = first.sequence
  | _, _ => False

/-- The batches have the same number of records and the same fingerprint. -/
def Matches (log : PartitionLog) (records original : List Record) : Prop :=
  original.length = records.length ∧ log.fingerprintOf original = log.fingerprintOf records

/-- The batch is the original, or the producer has sent it again. -/
def StandsFor (log : PartitionLog) (records original : List Record) : Prop :=
  original = records ∨ Coincide records original ∧ Matches log records original

/-- The offsets of a committed batch. -/
def offsetsOf (original : List Record × Int) : AppendResult :=
  ⟨original.2, original.2 + original.1.length - 1⟩

/-- The offsets from the first of these batches to the last one. -/
def Spans (originals : List (List Record × Int)) (result : AppendResult) : Prop :=
  ∃ first ∈ originals.head?, ∃ last ∈ originals.getLast?,
    result = ⟨first.2, last.2 + last.1.length - 1⟩

/-- The batch is committed, and it is one of the latest five of its producer's current epoch. -/
structure Recent (log : PartitionLog) (commits : List (List Record × Int))
    (original : List Record × Int) : Prop where
  committed : original ∈ commits
  latest : ∃ id e last, 0 ≤ id ∧ log.entryOf id original = some e ∧
    (log.entriesOf id commits).getLast? = some last ∧ last.epoch = e.epoch ∧
    e.identity ∈ lastEntries 5 (ofEpoch e.epoch (log.entriesOf id commits))

section Directory

variable {log : PartitionLog} {commits : List (List Record × Int)} {records : List Record}
  {original : List Record × Int} {find : Int → Option ProducerState} {id : Int}

theorem mem_entriesOf {e : Entry} : e ∈ log.entriesOf id commits ↔
    ∃ original ∈ commits, log.entryOf id original = some e := by
  simp [entriesOf]

/-- What an entry says of the committed batch that made it. -/
theorem entryOf_eq_some {e : Entry} : log.entryOf id original = some e ↔
    ∃ first rest, original.1 = first :: rest ∧ first.producerId = id ∧
      e = ⟨first.producerEpoch,
        ⟨first.sequence, original.1.length, original.2, log.fingerprintOf original.1⟩⟩ := by
  unfold entryOf
  split
  · rename_i heq
    simp [heq]
  · rename_i first rest heq
    simp only [heq, List.cons.injEq]
    constructor
    · intro h
      split at h
      · rename_i hid
        exact ⟨first, rest, ⟨rfl, rfl⟩, hid, (Option.some.inj h).symm⟩
      · cases h
    · rintro ⟨_, _, ⟨rfl, rfl⟩, hid, rfl⟩
      rw [if_pos hid]

/-- A remembered batch was committed. -/
theorem PartitionLog.Remembers.committed (h : log.Remembers find commits) (hid : 0 ≤ id) {state : ProducerState}
    (hfind : find id = some state) {identity : BatchIdentity} (hmem : identity ∈ state.batches) :
    ∃ original ∈ commits, log.entryOf id original = some ⟨state.epoch, identity⟩ := by
  rw [(h id hid).2, remembered, Option.map_eq_some_iff] at hfind
  obtain ⟨last, -, rfl⟩ := hfind
  have hepoch := (lastEntries_suffix _ _).mem hmem
  simp only [ofEpoch, List.mem_map, List.mem_filter, decide_eq_true_eq] at hepoch
  obtain ⟨⟨epoch, _⟩, ⟨he, rfl⟩, rfl⟩ := hepoch
  exact mem_entriesOf.mp he

/-- A recent batch is remembered. -/
theorem Recent.state (h : Recent log commits original) (hremembers : log.Remembers find commits) :
    ∃ id e state, 0 ≤ id ∧ log.entryOf id original = some e ∧ find id = some state ∧
      state.epoch = e.epoch ∧ e.identity ∈ state.batches := by
  obtain ⟨id, e, last, hid, hentry, hlast, hepoch, hmem⟩ := h.latest
  refine ⟨id, e, ⟨id, last.epoch, lastEntries 5 (ofEpoch last.epoch (log.entriesOf id commits))⟩,
    hid, hentry, ?_, hepoch, ?_⟩
  · rw [(hremembers id hid).2, remembered, hlast]
    rfl
  · rwa [hepoch]

end Directory

/-! ## Decisions -/

section Decisions

variable {log : PartitionLog} {commits : List (List Record × Int)} {ss : List ProducerState}
  {start : Int} {d d' : Decision}

theorem Decision.find_start (ss : List ProducerState) (next : Int) :
    (Decision.start next).find ss = fun id => ss.find? (·.id = id) := by
  funext id
  simp [Decision.find, Decision.start]

/-- The original of a batch that the decision has settled. -/
theorem PartitionLog.Judged.original {batch : List Record × String} (hjudged : Judged ss d batch d')
    (hbatch : log.Admitted batch)
    (hremembers : log.Remembers (d.find ss) (commits ++ d.additions)) :
    ∃ original ∈ commits ++ d'.additions, StandsFor log batch.1 original.1 ∧
      d'.results = d.results ++ [offsetsOf original] := by
  cases hjudged with
  | anonymous => exact ⟨_, List.mem_append_right _ List.mem_concat_self, .inl rfl, rfl⟩
  | continued => exact ⟨_, List.mem_append_right _ List.mem_concat_self, .inl rfl, rfl⟩
  | @repeated first rest fingerprint batch hid hrec =>
    obtain ⟨hepoch, hfind, hcount, hfingerprint⟩ := hrec
    have hmem := List.mem_of_find?_eq_some hfind
    have hsequence : batch.sequence = first.sequence := by simpa using List.find?_some hfind
    -- a recognised batch belongs to a known producer
    have hknown : d.find ss first.producerId = some (d.stateFor ss first) := by
      unfold Decision.stateFor at hmem ⊢
      cases hstate : d.find ss first.producerId with
      | some state => rfl
      | none => simp [hstate, ProducerState.new] at hmem
    obtain ⟨original, hcommitted, hentry⟩ := PartitionLog.Remembers.committed hremembers hid hknown hmem
    obtain ⟨first', rest', heq, hid', hentry⟩ := entryOf_eq_some.mp hentry
    obtain ⟨hepoch', rfl⟩ := Entry.mk.inj hentry
    simp only at hcount hfingerprint hsequence
    refine ⟨original, hcommitted, .inr ⟨?_, hcount, ?_⟩, ?_⟩
    · rw [heq]
      exact ⟨hid, hid', hepoch'.symm.trans hepoch, hsequence⟩
    · rw [hfingerprint]
      exact hbatch.fingerprint.symm
    · simp [Decision.repeat, offsetsOf, hcount]

/-- Every batch of a request that is settled has its original among the committed ones. -/
theorem judge_originals {batches : List (List Record × String)}
    (hbatches : ∀ batch ∈ batches, log.Admitted batch) (hss : ∀ p ∈ ss, ValidState start p)
    (hstart : 0 ≤ start) (hsound : d.Sound ss start)
    (hremembers : log.Remembers (d.find ss) (commits ++ d.additions))
    (h : judge ss batches d = .ok d') :
    d.additions <+: d'.additions ∧ ∃ originals,
      List.Forall₂ (fun batch original => original ∈ commits ++ d'.additions ∧
        StandsFor log batch.1 original.1) batches originals ∧
      d'.results = d.results ++ originals.map offsetsOf := by
  -- over the batches, with what is decided so far
  induction batches generalizing d with
  | nil =>
    cases h
    exact ⟨List.prefix_rfl, [], .nil, by simp⟩
  | cons batch batches ih =>
    simp only [judge, bind_eq_ok] at h
    obtain ⟨d₁, hone, hrest⟩ := h
    have hbatch := hbatches batch List.mem_cons_self
    have hjudged := (judgeBatch_eq_ok (hsound.past hss)).mp hone
    -- the original of the first batch is a committed one, or the batch itself
    obtain ⟨original, hcommitted, hstands, hresults⟩ :=
      hjudged.original hbatch hremembers
    obtain ⟨hgrows, originals, hall, hrestResults⟩ :=
      ih (fun b hb => hbatches b (List.mem_cons_of_mem _ hb))
        (hjudged.sound hbatch hsound hss hstart) (hjudged.remembers hbatch hsound hss hremembers)
        hrest
    -- a decision is never taken back
    have hfirst : d.additions <+: d₁.additions := by
      cases hjudged with
      | anonymous => exact List.prefix_append ..
      | repeated => exact List.prefix_rfl
      | continued => exact List.prefix_append ..
    -- what was committed stays committed
    refine ⟨hfirst.trans hgrows, original :: originals, .cons ⟨?_, hstands⟩ hall, ?_⟩
    · exact ((List.prefix_append_right_inj commits).mpr hgrows).mem hcommitted
    · rw [hrestResults, hresults]
      simp

/-- The result of a request reaches from its first original to its last. -/
theorem Decision.result_spans {originals : List (List Record × Int)} (hne : originals ≠ [])
    (h : d.results = originals.map offsetsOf) : Spans originals d.result := by
  obtain ⟨first, rest, rfl⟩ := List.exists_cons_of_ne_nil hne
  obtain ⟨init, last, hlast⟩ := List.eq_nil_or_concat' (first :: rest) |>.resolve_left hne
  have hfirst : d.results.head? = some (offsetsOf first) := by simp [h]
  have hend : d.results.getLast? = some (offsetsOf last) := by simp [h, hlast]
  refine ⟨first, rfl, last, by simp [hlast], ?_⟩
  rw [Decision.result, hfirst, hend]
  rfl

/-- The batch has the place of a recent one in the sequence of its producer. -/
structure Resends (log : PartitionLog) (commits : List (List Record × Int)) (records : List Record)
    (original : List Record × Int) : Prop where
  recent : Recent log commits original
  coincide : Coincide records original.1

/-- What stands for a batch of a producer has its place and its content. -/
theorem StandsFor.resends {records : List Record} {original : List Record × Int}
    (h : StandsFor log records original.1)
    (hidempotent : ∀ first ∈ records.head?, 0 ≤ first.producerId)
    (hrecent : Recent log commits original) :
    Resends log commits records original ∧ Matches log records original.1 := by
  rcases h with rfl | ⟨hcoincide, hmatches⟩
  · refine ⟨⟨hrecent, ?_⟩, rfl, rfl⟩
    obtain ⟨_, _, _, -, hentry, -⟩ := hrecent.latest
    obtain ⟨first, rest, heq, -⟩ := entryOf_eq_some.mp hentry
    rw [heq] at hidempotent ⊢
    exact ⟨hidempotent first rfl, rfl, rfl, rfl⟩
  · exact ⟨⟨hrecent, hcoincide⟩, hmatches⟩

/-- A batch that is sent again is found in the directory. -/
theorem Resends.found {find : Int → Option ProducerState} {start : Int} {records : List Record}
    {original : List Record × Int} (h : Resends log commits records original)
    (hremembers : log.Remembers find commits)
    (hvalid : ∀ id state, find id = some state → ValidState start state) :
    ∃ first rest state identity, records = first :: rest ∧ 0 ≤ first.producerId ∧
      find first.producerId = some state ∧ state.epoch = first.producerEpoch ∧
      state.batches.find? (·.sequence = first.sequence) = some identity ∧
      identity.count = original.1.length ∧ identity.baseOffset = original.2 ∧
      identity.fingerprint = log.fingerprintOf original.1 := by
  obtain ⟨id, e, state, -, hentry, hfind, hepoch, hmem⟩ := h.recent.state hremembers
  obtain ⟨first', rest', heq, rfl, rfl⟩ := entryOf_eq_some.mp hentry
  have hcoincide := h.coincide
  rw [heq] at hcoincide
  cases records with
  | nil => exact hcoincide.elim
  | cons first rest =>
    obtain ⟨hid, hid', hepoch', hsequence⟩ := hcoincide
    refine ⟨first, rest, state,
      ⟨first'.sequence, original.1.length, original.2, log.fingerprintOf original.1⟩, rfl, hid,
      hid' ▸ hfind, hepoch.trans hepoch', ?_, rfl, rfl, rfl⟩
    rw [← hsequence]
    exact (hvalid _ _ hfind).find hmem

/-- A batch that is sent again unchanged is recognised, and a changed one is refused. -/
theorem Resends.judged {batch : List Record × String} {original : List Record × Int}
    (h : Resends log commits batch.1 original) (hbatch : log.Admitted batch)
    (hpast : d.Past ss) (hremembers : log.Remembers (d.find ss) commits)
    (hvalid : ∀ id state, d.find ss id = some state → ValidState start state)
    (hsorted : Sorted d.states) :
    (Matches log batch.1 original.1 → ∃ d', judgeBatch ss batch d = .ok d' ∧
      d'.find ss = d.find ss ∧ Sorted d'.states ∧ d'.nextOffset = d.nextOffset ∧
      d'.additions = d.additions ∧ d'.results = d.results ++ [offsetsOf original]) ∧
    (¬ Matches log batch.1 original.1 → judgeBatch ss batch d = .error .conflictingSequence) := by
  obtain ⟨first, rest, state, identity, hrecords, hid, hfind, hepoch, hidentity, hcount, hbase,
    hfingerprint⟩ := h.found hremembers hvalid
  obtain ⟨records, fingerprint⟩ := batch
  obtain rfl : records = first :: rest := hrecords
  have hsame : log.fingerprintOf (first :: rest) = fingerprint := hbatch.fingerprint
  have hstate : d.stateFor ss first = state := by
    rw [Decision.stateFor, hfind]
    rfl
  simp only [Matches, ← hcount, hsame, ← hfingerprint]
  -- a batch with the fingerprint and the length of its original is recognised
  constructor
  · rintro ⟨hlength, hdigest⟩
    have hrecognises : (d.stateFor ss first).Recognises first.producerEpoch first.sequence
        (first :: rest).length fingerprint identity := by
      rw [hstate]
      exact ⟨hepoch, hidentity, hlength, hdigest⟩
    refine ⟨_, (judgeBatch_eq_ok hpast).mpr (.repeated hid hrecognises), ?_,
      sorted_upsert _ hsorted, rfl, rfl, ?_⟩
    · -- the state that is entered was there before
      funext id
      have hown : state.id = first.producerId := by
        rcases Option.or_eq_some_iff.mp hfind with hown | ⟨-, hstored⟩
        · simpa using List.find?_some hown
        · simpa using List.find?_some hstored
      simp only [Decision.find, Decision.repeat, hstate, find_upsert _ hsorted, hown]
      split
      · rename_i heq
        subst heq
        rw [Option.some_or]
        exact hfind.symm
      · rfl
    · simp only [Decision.repeat, offsetsOf, hbase, hlength, ← hcount]
  -- any other one conflicts with it
  · intro hnot
    have hrefused : (d.stateFor ss first).accept first.producerEpoch first.sequence
        (first :: rest).length fingerprint d.nextOffset = .error .conflictingSequence := by
      have hdiffers : identity.count ≠ (first :: rest).length ∨
          identity.fingerprint ≠ fingerprint := by
        by_contra hboth
        push Not at hboth
        exact hnot hboth
      simp only [hstate, ProducerState.accept, hepoch, lt_irrefl, false_and, if_false,
        hidentity, rejectIf, if_pos hdiffers]
      rfl
    simp only [judgeBatch, ge_iff_le, hid, if_true, hrefused]
    rfl

/-- A request of batches that are sent again is answered from what is remembered. -/
theorem judge_resends {batches : List (List Record × String)}
    {originals : List (List Record × Int)} (hbatches : ∀ batch ∈ batches, log.Admitted batch)
    (hpast : d.Past ss) (hremembers : log.Remembers (d.find ss) commits)
    (hvalid : ∀ id state, d.find ss id = some state → ValidState start state)
    (hsorted : Sorted d.states)
    (h : List.Forall₂ (fun batch original => Resends log commits batch.1 original) batches originals) :
    (List.Forall₂ (fun batch original => Matches log batch.1 original.1) batches originals →
      ∃ d', judge ss batches d = .ok d' ∧ d'.additions = d.additions ∧
        d'.results = d.results ++ originals.map offsetsOf) ∧
    (¬ List.Forall₂ (fun batch original => Matches log batch.1 original.1) batches originals →
      judge ss batches d = .error .conflictingSequence) := by
  -- over the batches and their originals
  induction h generalizing d with
  | nil => exact ⟨fun _ => ⟨d, rfl, rfl, by simp⟩, fun hnot => absurd .nil hnot⟩
  | @cons batch original batches originals hresends _ ih =>
    obtain ⟨hok, hconflict⟩ :=
      hresends.judged (hbatches batch List.mem_cons_self) hpast hremembers hvalid hsorted
    -- the first batch is recognised, or ends the request
    by_cases hmatches : Matches log batch.1 original.1
    · obtain ⟨d₁, hone, hfind, hsorted₁, hnext, hadditions, hresults⟩ := hok hmatches
      have hpast₁ : d₁.Past ss := by
        intro id state hstate
        rw [hnext]
        exact hpast id state (hfind ▸ hstate)
      have hrest := @ih d₁ (fun b hb => hbatches b (List.mem_cons_of_mem _ hb)) hpast₁
        (hfind ▸ hremembers) (hfind ▸ hvalid) hsorted₁
      have hjudge : judge ss (batch :: batches) d = judge ss batches d₁ := by
        simp [judge, hone, bind, Except.bind]
      rw [hjudge, List.forall₂_cons, hadditions] at *
      refine ⟨fun hall => ?_, fun hnot => hrest.2 fun hall => hnot ⟨hmatches, hall⟩⟩
      obtain ⟨d', hd', hadditions', hresults'⟩ := hrest.1 hall.2
      exact ⟨d', hd', hadditions', by rw [hresults', hresults]; simp⟩
    · refine ⟨fun hall => absurd (List.forall₂_cons.mp hall).1 hmatches, fun _ => ?_⟩
      simp [judge, hconflict hmatches, bind, Except.bind]

end Decisions

/-! ## Requests that only read -/

section Inquiries

variable {Client : Type} {self : PartitionLog} {f : Faults} {cl : Client} {b : Bucket Client Body}
  {α : Type}

/-- The decision on a request is found out. -/
theorem decideBatches_inquires (cl : Client) (hf : ¬ f.transport) {root : Option ProducerRef} {os : List String}
    {ss : List ProducerState} {next : Int} (h : self.Directory b.objects next root os ss)
    (batches : List (List Record × String)) (d : Decision) :
    Inquires f self.crates.size cl b (self.decideBatches root next batches d).run
      (judge ss batches d) := by
  -- the state of a producer was entered by an earlier batch, or is looked up
  have hsnapshot : ∀ (d : Decision) (first : Record), Inquires f self.crates.size cl b
      (self.producerSnapshot root next d.states first).run (.ok (d.stateFor ss first)) := by
    intro d first
    unfold producerSnapshot Decision.stateFor Decision.find
    cases d.states.find? (·.id = first.producerId) with
    | some state => exact inquires_pure _
    | none =>
      have hlookup : self.evaluate b.objects (self.producerState root first.producerId next) =
        .ok (ss.find? (·.id = first.producerId)) := producerState_evaluate h
      exact inquires_bind (inquires_evaluate hf (producerStateFrom_reads _ _ _) hlookup)
        (inquires_pure _)
  -- one batch is judged by its first record
  have hone : ∀ batch d, Inquires f self.crates.size cl b (self.decideBatch root next batch d).run
      (judgeBatch ss batch d) := by
    rintro ⟨_ | ⟨first, rest⟩, fingerprint⟩ d
    · exact inquires_throw _
    · unfold decideBatch judgeBatch
      dsimp only
      split
      · refine inquires_bind (hsnapshot d first) ?_
        cases (d.stateFor ss first).accept first.producerEpoch first.sequence
          (first :: rest).length fingerprint d.nextOffset with
        | ok out => exact inquires_bind (inquires_check _) (inquires_pure _)
        | error e => exact inquires_bind_error (inquires_check _)
      · cases anonymousResult d.nextOffset (first :: rest).length with
        | ok out => exact inquires_bind (inquires_check _) (inquires_pure _)
        | error e => exact inquires_bind_error (inquires_check _)
  -- the batches one after the other
  induction batches generalizing d with
  | nil => exact inquires_pure _
  | cons batch batches ih =>
    unfold decideBatches
    rw [judge]
    have hbatch := hone batch d
    cases hjudged : judgeBatch ss batch d with
    | ok d' =>
      rw [hjudged] at hbatch
      exact inquires_bind hbatch (ih d')
    | error e =>
      rw [hjudged] at hbatch
      exact inquires_bind_error hbatch

/-- A request with nothing new is answered by the decision alone. -/
theorem prepareAppend_inquires (hf : ¬ f.transport) {m : LogManifest} {live : List String}
    {v : LogState} (hcoherent : self.Coherent b.objects m live v)
    {batches : List (List Record × String)} {receivedAtMs : Nat}
    (hnothing : ∀ d, judge v.producers batches (.start v.next) = .ok d → d.additions = []) :
    Inquires f self.crates.size cl b (self.prepareAppend m batches receivedAtMs).run
      ((judge v.producers batches (.start v.next)).map fun d => (d.result, none)) := by
  obtain ⟨ps, hdirectory, -⟩ := hcoherent.directory
  have hdecide := decideBatches_inquires cl hf hdirectory batches (.start v.next)
  unfold prepareAppend
  dsimp only
  rw [← hcoherent.next_eq]
  cases hjudge : judge v.producers batches (.start v.next) with
  | ok d =>
    rw [hjudge] at hdecide
    refine inquires_bind hdecide ?_
    rw [if_pos (hnothing d hjudge)]
    exact inquires_pure _
  | error e =>
    rw [hjudge] at hdecide
    exact inquires_bind_error hdecide

/-- A call with nothing new: it is answered, or refused for a reason that is not in the store. -/
theorem appendBatches_inquires (hf : ¬ f.transport) (horder : self.InOrder b.objects)
    {live : List String} {v : LogState}
    (hcoherent : self.Coherent b.objects (self.manifestIn b.objects) live v) {m : TopicMetadata}
    (hmetadata : Established self b.objects m)
    (hpartition : validatePartition self.partition m.partitionCount = .ok ())
    {defaultPartitions : PartitionCount} {now : Nat} {batches : List (List Record)}
    {fingerprints : List String} (hadmitted : self.admitBatches batches = .ok fingerprints)
    {r : Except LogError Decision}
    (hjudge : judge v.producers (batches.zip fingerprints) (.start v.next) = r)
    (hnothing : ∀ d, r = .ok d → d.additions = []) (herror : ∀ e, r = .error e → e.isMissing = false) :
    Inquires f self.crates.size cl b
      (self.appendBatches defaultPartitions (some now) batches).run (r.map Decision.result) := by
  obtain ⟨htopic, -⟩ := admitBatches_eq_ok hadmitted
  obtain ⟨loaded, hload, hmanifest⟩ := loadManifest_inquires cl hf horder
  unfold appendBatches
  refine inquires_check_bind hadmitted (inquires_check_bind (a := now) rfl ?_)
  refine inquires_bind (ensureTopic_inquires hf htopic hmetadata hpartition _) ?_
  -- the first of the attempts is the last one
  rw [show maxCasAttempts = 127 + 1 from rfl, appendAttempts]
  refine inquires_bind hload ?_
  dsimp only
  rw [hmanifest]
  refine inquires_attempt_bind (prepareAppend_inquires hf hcoherent (hjudge ▸ hnothing)) ?_
  rw [hjudge]
  cases r with
  | ok d => exact inquires_pure _
  | error e =>
    refine inquires_bind (a := false) ?_ (inquires_throw _)
    unfold staleMissing
    rw [herror e rfl]
    exact inquires_pure _

end Inquiries

/-! ## All interleavings -/

section Chain

variable {Client : Type} {Y : Service Client} {g : Genesis Y.log} {es es' : List (Event Client Body)}
  {v v' : LogState} {commits commits' : List (List Record × Int)}

/-- What is committed stays so. -/
theorem Chronicle.commits_prefix (h : Chronicle Y g es v commits)
    (h' : Chronicle Y g (es ++ es') v' commits') : commits <+: commits' := by
  induction es' using List.reverseRecOn generalizing v' commits' with
  | nil =>
    rw [List.append_nil] at h'
    rw [(h.unique h').2]
  | append_singleton es' e ih =>
    rw [← List.append_assoc] at h'
    rcases h'.concat with ⟨-, h'⟩ | ⟨v₁, new, commits₁, rfl, h', -⟩
    · exact ih h'
    · exact (ih h').trans (List.prefix_append ..)

theorem Spans.unique {originals : List (List Record × Int)} {result result' : AppendResult}
    (h : Spans originals result) (h' : Spans originals result') : result = result' := by
  obtain ⟨first, hfirst, last, hlast, rfl⟩ := h
  obtain ⟨first', hfirst', last', hlast', rfl⟩ := h'
  rw [Option.mem_unique hfirst hfirst', Option.mem_unique hlast hlast']

end Chain

variable {Client : Type} [DecidableEq Client]

/-- **Retries are recognized**: in every configuration that the clients can reach, a request of
batches that have the places of recent ones, on its own and by a client whose requests reach the
store, only reads. When all batches have stayed the same it gets the offsets of the originals, and
when one has changed it is refused as a conflict. -/
theorem Service.retries_recognized (Y : Service Client) (g : Genesis Y.log)
    (hstart : ∀ id, 0 ≤ id → InSequence Y.log g.past id (g.state.producers.find? (·.id = id)))
    {cfg : Config Client (Cmd Body) Resp (Bucket Client Body) Outcome}
    (h : Y.system.Reachable g.bucket cfg) {v : LogState} {commits : List (List Record × Int)}
    (hchronicle : Chronicle Y g cfg.shared.history v commits) {m : TopicMetadata}
    (hmetadata : Established Y.log cfg.shared.objects m)
    (hpartition : validatePartition Y.log.partition m.partitionCount = .ok ()) {f : Faults}
    (hf : ¬ f.transport) (cl : Client) (defaultPartitions : PartitionCount) (now : Nat)
    {batches : List (List Record)} {fingerprints : List String}
    (hadmitted : Y.log.admitBatches batches = .ok fingerprints)
    {originals : List (List Record × Int)}
    (hresends : List.Forall₂ (Resends Y.log commits) batches originals) :
    (List.Forall₂ (fun records original => Matches Y.log records original.1) batches originals →
      ∃ result, Spans originals result ∧ Inquires f Y.log.crates.size cl cfg.shared
        (Y.log.appendBatches defaultPartitions (some now) batches).run (.ok result)) ∧
    (¬ List.Forall₂ (fun records original => Matches Y.log records original.1) batches originals →
      Inquires f Y.log.crates.size cl cfg.shared
        (Y.log.appendBatches defaultPartitions (some now) batches).run
        (.error .conflictingSequence)) := by
  obtain ⟨v', commits', live, hcurrent, hcoherent, horder⟩ := Service.reachable_chronicle h
  obtain ⟨rfl, rfl⟩ := hcurrent.unique hchronicle
  obtain ⟨-, -, hne, hlength, hbatches⟩ := admitBatches_eq_ok hadmitted
  have hremembers := hchronicle.remembers (inSequence_iff.mp hstart)
  -- the decision starts with what the directory knows
  have hfind := Decision.find_start v'.producers v'.next
  have hvalid : ∀ id state, (Decision.start v'.next).find v'.producers id = some state →
      ValidState v'.next state := by
    intro id state hstate
    rw [hfind] at hstate
    exact hcoherent.valid_states state (List.mem_of_find?_eq_some hstate)
  have hpast := (Decision.sound_start hcoherent.fits_next).past hcoherent.valid_states
  obtain ⟨hsame, hchanged⟩ := judge_resends hbatches hpast (hfind ▸ hremembers) hvalid .nil
    ((forall₂_zip_iff hlength.symm).mpr hresends)
  have hmatches : List.Forall₂ (fun batch original => Matches Y.log batch.1 original.1)
      (batches.zip fingerprints) originals ↔
      List.Forall₂ (fun records original => Matches Y.log records original.1) batches originals :=
    forall₂_zip_iff (R := fun records (original : List Record × Int) =>
      Matches Y.log records original.1) hlength.symm
  rw [hmatches] at hsame hchanged
  constructor
  · intro hall
    obtain ⟨d, hjudge, hadditions, hresults⟩ := hsame hall
    have horiginals : originals ≠ [] := by
      rintro rfl
      exact hne (List.forall₂_nil_right_iff.mp hresends)
    refine ⟨d.result, Decision.result_spans horiginals hresults, ?_⟩
    exact appendBatches_inquires hf horder hcoherent hmetadata hpartition hadmitted hjudge
      (fun d' hd' => Except.ok.inj hd' ▸ hadditions) fun e he => by cases he
  · intro hnot
    exact appendBatches_inquires hf horder hcoherent hmetadata hpartition hadmitted (hchanged hnot)
      (fun d' hd' => by cases hd') fun e he => Except.error.inj he ▸ rfl

namespace Reference

/-- Two appends, one after the other: what they leave behind are the topic, and the state of the
producer of the first one. -/
theorem returning_sequence : ∃ cfg cfg', returning.system.Reachable genesis.bucket cfg ∧
    Relation.ReflTransGen returning.system.Step cfg cfg' ∧
    (∃ s, cfg.tasks 0 = some ⟨s, .ret (.appended (.ok ⟨0, 0⟩))⟩) ∧
    (∃ s, cfg'.tasks 1 = some ⟨s, .ret (.appended (.ok ⟨1, 1⟩))⟩) ∧
    cfg'.shared.objects log.topicMetadataPath = some (.metadata ⟨1, 1⟩) ∧
    log.producerAt cfg'.shared.objects 0 = .ok (some state) := by
  have houtcomes : (returning.outcomes [0, 1] ⟨genesis.bucket, [], []⟩).any (fun p =>
      acknowledges p.1 &&
      decide (p.2.bucket.objects log.topicMetadataPath = some (.metadata ⟨1, 1⟩) ∧
        (log.producerAt p.2.bucket.objects 0).toOption = some (some state))) = true := by
    decide +kernel
  -- the two runs are evaluated at once, and told apart by what they have left
  obtain ⟨⟨outs, l⟩, houts, hcheck⟩ := (Option.any_eq_true _ _).mp houtcomes
  obtain ⟨hacknowledged, hleft⟩ := Bool.and_eq_true_iff.mp hcheck
  obtain ⟨hmetadata, hproducer⟩ := of_decide_eq_true hleft
  obtain rfl := acknowledges_eq_true hacknowledged
  have hall : returning.outcomes ([0] ++ [1]) ⟨genesis.bucket, [], []⟩ = some (_, l) := houts
  obtain ⟨outs₁, outs₂, l₁, houts₁, houts₂, hsplit⟩ := Service.outcomes_append hall
  obtain ⟨cfg, hreach, hshared, hl₁, hcalls, hothers⟩ :=
    Service.reachable_outcomes houts₁ rfl rfl (by decide)
  obtain ⟨cfg', hsteps, hshared', -, hcalls', -⟩ :=
    Service.steps_outcomes houts₂ hl₁ (by decide) hshared fun cl hcl => hothers cl (by
      rw [List.mem_singleton] at hcl
      simp [hcl])
  simp only [List.forall₂_cons_left_iff, List.forall₂_nil_left_iff] at hcalls hcalls'
  obtain ⟨_, _, h₀, rfl, rfl⟩ := hcalls
  obtain ⟨_, _, h₁, rfl, rfl⟩ := hcalls'
  cases hsplit
  refine ⟨cfg, cfg', hreach, hsteps, h₀, h₁, by rw [hshared', hmetadata], ?_⟩
  rw [hshared']
  -- the directory has the state of the producer
  cases hknown : log.producerAt l.bucket.objects 0 with
  | ok known =>
    rw [hknown] at hproducer
    exact congrArg Except.ok (Option.some.inj hproducer)
  | error e =>
    rw [hknown] at hproducer
    cases hproducer

theorem sequence_empty : ∀ id, 0 ≤ id → InSequence log [] id none :=
  fun _ _ => ⟨.nil, by simp [entriesOf], .nil, rfl⟩

theorem numbered_admitted : log.admitBatches [[numberedRecord]] = .ok [fingerprint] := by rfl

theorem metadata_parsed : log.parseTopicMetadata
    ⟨log.crates.size (.metadata ⟨1, 1⟩), .metadata ⟨1, 1⟩, .ok (.metadata ⟨1, 1⟩)⟩ = .ok ⟨1, 1⟩ := by
  rfl

/-- The first record is all that is remembered of its producer. -/
theorem remembered_first {cfg : Config Nat (Cmd Body) Resp (Bucket Nat Body) Outcome}
    (hreach : returning.system.Reachable genesis.bucket cfg)
    (hknown : log.producerAt cfg.shared.objects 0 = .ok (some state)) {v : LogState}
    {commits : List (List Record × Int)}
    (hchronicle : Chronicle returning genesis cfg.shared.history v commits) :
    ∃ last, (log.entriesOf 0 commits).getLast? = some last ∧ last.epoch = 0 ∧
      lastEntries 5 (ofEpoch 0 (log.entriesOf 0 commits)) = [⟨0, 1, 0, fingerprint⟩] := by
  obtain ⟨v', commits', live, hcurrent, hcoherent, -⟩ := Service.reachable_chronicle hreach
  obtain ⟨rfl, rfl⟩ := hcurrent.unique hchronicle
  have hsequence := inSequence_iff.mpr
    (hchronicle.remembers (inSequence_iff.mp sequence_empty)) 0 le_rfl
  have hfind : v'.producers.find? (·.id = 0) = some state :=
    Except.ok.inj ((producerAt_eq hcoherent 0).symm.trans hknown)
  obtain ⟨last, hlast, hstate⟩ := Option.map_eq_some_iff.mp (hsequence.known.symm.trans hfind)
  obtain ⟨-, hepoch, hbatches⟩ := ProducerState.mk.inj hstate
  rw [hepoch] at hbatches
  exact ⟨last, hlast, hepoch, hbatches⟩

/-- So every batch of its epoch is recent. -/
theorem recent_of_committed {cfg : Config Nat (Cmd Body) Resp (Bucket Nat Body) Outcome}
    (hreach : returning.system.Reachable genesis.bucket cfg)
    (hknown : log.producerAt cfg.shared.objects 0 = .ok (some state)) {v : LogState}
    {commits : List (List Record × Int)}
    (hchronicle : Chronicle returning genesis cfg.shared.history v commits)
    {original : List Record × Int} (hcommitted : original ∈ commits) {e : Entry}
    (hentry : log.entryOf 0 original = some e) (hepoch : e.epoch = 0) :
    Recent log commits original := by
  obtain ⟨last, hlast, hsame, hremembered⟩ := remembered_first hreach hknown hchronicle
  have hmem : e.identity ∈ ofEpoch 0 (log.entriesOf 0 commits) := by
    simp only [ofEpoch, List.mem_map, List.mem_filter, decide_eq_true_eq]
    exact ⟨e, ⟨mem_entriesOf.mpr ⟨original, hcommitted, hentry⟩, hepoch⟩, rfl⟩
  -- nothing has been pushed out
  have hlength := lastEntries_length 5 (ofEpoch 0 (log.entriesOf 0 commits))
  rw [hremembered, List.length_singleton] at hlength
  refine ⟨hcommitted, 0, e, last, le_rfl, hentry, hlast, hsame.trans hepoch.symm, ?_⟩
  rw [hepoch, lastEntries, show (ofEpoch 0 (log.entriesOf 0 commits)).length - 5 = 0 by omega]
  exact hmem

/-- The first record is committed. -/
theorem recent_first {cfg : Config Nat (Cmd Body) Resp (Bucket Nat Body) Outcome}
    (hreach : returning.system.Reachable genesis.bucket cfg)
    (hknown : log.producerAt cfg.shared.objects 0 = .ok (some state)) {v : LogState}
    {commits : List (List Record × Int)}
    (hchronicle : Chronicle returning genesis cfg.shared.history v commits) :
    ∃ original, original.2 = 0 ∧ Resends log commits [numberedRecord] original ∧
      Matches log [numberedRecord] original.1 := by
  obtain ⟨last, hlast, hsame, hremembered⟩ := remembered_first hreach hknown hchronicle
  have hmem := (lastEntries_suffix _ _).mem (hremembered ▸ List.mem_singleton_self _)
  simp only [ofEpoch, List.mem_map, List.mem_filter, decide_eq_true_eq] at hmem
  obtain ⟨⟨epoch, identity⟩, ⟨he, rfl⟩, rfl⟩ := hmem
  obtain ⟨original, hcommitted, hentry⟩ := mem_entriesOf.mp he
  have hrecent := recent_of_committed hreach hknown hchronicle hcommitted hentry rfl
  obtain ⟨first, rest, heq, hid, hsame⟩ := entryOf_eq_some.mp hentry
  obtain ⟨hepoch', hidentity⟩ := Entry.mk.inj hsame
  obtain ⟨hsequence', hcount, hoffset, hdigest⟩ := BatchIdentity.mk.inj hidentity
  refine ⟨original, hoffset.symm, ⟨hrecent, ?_⟩, hcount.symm, hdigest.symm⟩
  rw [heq]
  exact ⟨le_rfl, hid, hepoch'.symm, hsequence'.symm⟩

/-- A retry of the first request gets the offsets of its original, behind which there is another
record now. -/
theorem retries_recognized_first : ∃ cfg, returning.system.Reachable genesis.bucket cfg ∧
    (∃ s, cfg.tasks 1 = some ⟨s, .ret (.appended (.ok ⟨1, 1⟩))⟩) ∧
    ∃ v commits original, Chronicle returning genesis cfg.shared.history v commits ∧
      original.2 = 0 ∧ Resends log commits [numberedRecord] original ∧
      Matches log [numberedRecord] original.1 ∧ ∃ result, Spans [original] result ∧
        Inquires .none log.crates.size 7 cfg.shared
          (log.appendBatches ⟨1, rfl⟩ (some 5) [[numberedRecord]]).run (.ok result) := by
  obtain ⟨cfg₀, cfg, hreach₀, hsteps, -, hlater, hobject, hknown⟩ := returning_sequence
  have hreach := hreach₀.trans hsteps
  obtain ⟨v, commits, live, hchronicle, -⟩ := Service.reachable_chronicle hreach
  obtain ⟨original, hoffset, hresends, hmatches⟩ := recent_first hreach hknown hchronicle
  obtain ⟨result, hspans, hretry⟩ := (Service.retries_recognized returning genesis sequence_empty hreach
    hchronicle ⟨hobject, metadata_parsed⟩ rfl (f := .none) (fun hf => hf) 7 ⟨1, rfl⟩ 5
    numbered_admitted (.cons hresends .nil)).1 (.cons hmatches .nil)
  exact ⟨cfg, hreach, hlater, v, commits, original, hchronicle, hoffset, hresends, hmatches, result,
    hspans, hretry⟩

end Reference

/-- `load_topic_metadata` accepts metadata of the length that `serde_json` writes it in. -/
def MetadataFits (log : PartitionLog) : Prop :=
  ∀ n, validatePartitionCount n = .ok () →
    log.crates.size (.metadata ⟨topicMetadataSchema, n⟩) ≤ maxTopicMetadataBytes

theorem Registered.established {log : PartitionLog} {objects : String → Option Body} {n : Int}
    (h : Registered log objects n) (hfits : MetadataFits log) :
    Established log objects ⟨topicMetadataSchema, n⟩ := by
  have hsize : ¬ log.crates.size (.metadata ⟨topicMetadataSchema, n⟩) > maxTopicMetadataBytes :=
    (hfits n h.valid).not_gt
  refine ⟨h.body, ?_⟩
  simp [parseTopicMetadata, rejectIf, hsize, Crates.collectBounded, TopicMetadata.validate, h.valid,
    bind, Except.bind, pure, Except.pure]

theorem Reference.metadata_fits : MetadataFits log := by
  intro n _
  have hschema := length_natural_le topicMetadataSchema
  have hcount : (integer n).length ≤ 21 := by
    have hdigits := length_natural_le n.natAbs
    unfold integer
    split
    · rw [List.length_cons]
      omega
    · omega
  have hnames : (quote "schema").length = 8 ∧ (quote "partition_count").length = 17 := by decide
  change (metadataText ⟨topicMetadataSchema, n⟩).length ≤ 4096
  simp only [metadataText, object, separated, member, List.map_cons, List.map_nil, List.length_cons,
    List.length_append, List.length_nil, hnames.1, hnames.2]
  omega

/-- **Acknowledgements are located, and last**: an acknowledged request names the offsets from its
first batch to its last, as they are committed. When it is sent again while its batches are recent,
on its own and by a client whose requests reach the store, then whatever has happened in between, it
gets the same answer, and nothing is written. -/
theorem Service.acknowledgements_last (Y : Service Client) (g : Genesis Y.log)
    (hstart : ∀ id, 0 ≤ id → InSequence Y.log g.past id (g.state.producers.find? (·.id = id)))
    {cfg cfg' : Config Client (Cmd Body) Resp (Bucket Client Body) Outcome}
    (h : Y.system.Reachable g.bucket cfg) (hlater : Relation.ReflTransGen Y.system.Step cfg cfg')
    {v v' : LogState} {commits commits' : List (List Record × Int)}
    (hchronicle : Chronicle Y g cfg.shared.history v commits)
    (hchronicle' : Chronicle Y g cfg'.shared.history v' commits') {cl : Client}
    {s : Bucket Client Body} {result : AppendResult} {defaultPartitions : PartitionCount}
    {clock : Option Nat} {batches : List (List Record)}
    (hop : Y.op cl = .append defaultPartitions clock batches)
    (htask : cfg.tasks cl = some ⟨s, .ret (.appended (.ok result))⟩) :
    ∃ originals, Spans originals result ∧
      List.Forall₂ (fun records original => original ∈ commits ∧
        StandsFor Y.log records original.1) batches originals ∧
      ((∀ records ∈ batches, ∀ first ∈ records.head?, 0 ≤ first.producerId) →
        (∀ original ∈ originals, Recent Y.log commits' original) →
        MetadataFits Y.log →
        ∀ (f : Faults) (cl' : Client) (defaultPartitions : PartitionCount) (now : Nat),
          ¬ f.transport → Inquires f Y.log.crates.size cl' cfg'.shared
            (Y.log.appendBatches defaultPartitions (some now) batches).run (.ok result)) := by
  obtain ⟨w, hshared, hpromises⟩ := Y.reachable_sound h
  have hpromise := hpromises cl s _ htask
  simp only [Promise, hop] at hpromise
  obtain ⟨fingerprints, hadmitted, hanswered, hcounted⟩ := hpromise
  obtain ⟨es, es', v₁, commits₁, d, hhistory, -, hjudged, -, hjudge, rfl, heffect⟩ :=
    hanswered.answer
  rw [hshared] at hhistory
  rw [hhistory] at hchronicle
  obtain ⟨-, -, hne, hlength, hbatches⟩ := admitBatches_eq_ok hadmitted
  -- what the request has added is committed by now
  have hcommitted : commits₁ ++ d.additions <+: commits := by
    by_cases hnone : d.additions = []
    · rw [hnone, List.append_nil]
      exact hjudged.commits_prefix hchronicle
    · obtain ⟨e, rest, rfl, hclient, hpath⟩ := heffect.resolve_left hnone
      obtain ⟨v₂, hlink, -⟩ := hjudged.appends hchronicle hclient hpath hop hadmitted hjudge
      rw [List.append_cons] at hchronicle
      exact hlink.commits_prefix hchronicle
  obtain ⟨_, _, _, hcoherent⟩ := hjudged.coherent
  have hremembers : Y.log.Remembers ((Decision.start v₁.next).find v₁.producers)
      (commits₁ ++ (Decision.start v₁.next).additions) := by
    rw [Decision.find_start, show (Decision.start v₁.next).additions = [] from rfl, List.append_nil]
    exact hjudged.remembers (inSequence_iff.mp hstart)
  obtain ⟨-, originals, horiginals, hresults⟩ := judge_originals hbatches hcoherent.valid_states
    (hcoherent.start_nonneg.trans hcoherent.tiles.le) (Decision.sound_start hcoherent.fits_next)
    hremembers hjudge
  have hall : List.Forall₂ (fun records original => original ∈ commits₁ ++ d.additions ∧
      StandsFor Y.log records original.1) batches originals :=
    (forall₂_zip_iff hlength.symm).mp horiginals
  have hsome : originals ≠ [] := by
    rintro rfl
    exact hne (List.forall₂_nil_right_iff.mp hall)
  have hspans := Decision.result_spans hsome hresults
  refine ⟨originals, hspans, hall.imp fun _ _ h => ⟨hcommitted.mem h.1, h.2⟩, ?_⟩
  intro hidempotent hrecent hfits f cl' defaultPartitions' now hf
  -- the metadata that the request has found or created is still there
  obtain ⟨n, hregistered, hpartition⟩ : Counted Y.log cfg'.shared.objects := by
    obtain ⟨w₁, w₂, hle, hshared₁, hshared₂⟩ := Y.steps_sound h hlater
    rw [← hshared₂]
    refine Counted.later ?_ hle
    rwa [hshared₁, ← hshared]
  have hboth : List.Forall₂ (fun records original => Resends Y.log commits' records original ∧
      Matches Y.log records original.1) batches originals := by
    rw [List.forall₂_iff_get] at hall ⊢
    refine ⟨hall.1, fun i hi hi' => ?_⟩
    have hstands := (hall.2 i hi hi').2
    exact hstands.resends (hidempotent _ (List.get_mem ..)) (hrecent _ (List.get_mem ..))
  obtain ⟨result', hspans', hinquires⟩ := (Y.retries_recognized g hstart (h.trans hlater)
    hchronicle' (hregistered.established hfits) hpartition hf cl' defaultPartitions' now hadmitted
    (hboth.imp fun _ _ h => h.1)).1 (hboth.imp fun _ _ h => h.2)
  rwa [hspans.unique hspans']

/-- The first request is answered with the offset of its record, also after another append. -/
theorem Reference.acknowledgements_last_first : ∃ cfg cfg',
    Reference.returning.system.Reachable Reference.genesis.bucket cfg ∧
    Relation.ReflTransGen Reference.returning.system.Step cfg cfg' ∧
    (∃ s, cfg.tasks 0 = some ⟨s, .ret (.appended (.ok ⟨0, 0⟩))⟩) ∧
    (∃ s, cfg'.tasks 1 = some ⟨s, .ret (.appended (.ok ⟨1, 1⟩))⟩) ∧
    (∃ v commits originals, Chronicle Reference.returning Reference.genesis cfg.shared.history v commits ∧
      Spans originals ⟨0, 0⟩ ∧ List.Forall₂ (fun records original => original ∈ commits ∧
        StandsFor Reference.log records original.1) [[Reference.numberedRecord]] originals) ∧
    Inquires .none Reference.log.crates.size 7 cfg'.shared
      (Reference.log.appendBatches ⟨1, rfl⟩ (some 5) [[Reference.numberedRecord]]).run
      (.ok ⟨0, 0⟩) := by
  obtain ⟨cfg, cfg', hreach, hsteps, ⟨s, htask⟩, hlater, -, hknown⟩ := Reference.returning_sequence
  have hreach' := hreach.trans hsteps
  -- what the first configuration has committed, and the later one as well
  obtain ⟨v, commits, _, hchronicle, -⟩ := Service.reachable_chronicle hreach
  obtain ⟨v', commits', _, hchronicle', -⟩ := Service.reachable_chronicle hreach'
  obtain ⟨originals, hspans, hall, hagain⟩ := Service.acknowledgements_last Reference.returning
    Reference.genesis Reference.sequence_empty hreach hsteps hchronicle hchronicle'
    (by rfl : Reference.returning.op 0 = _) htask
  have hcommits : commits <+: commits' := by
    obtain ⟨more, hmore⟩ := Reference.returning.history_prefix hreach hsteps
    rw [← hmore] at hchronicle'
    exact hchronicle.commits_prefix hchronicle'
  refine ⟨cfg, cfg', hreach, hsteps, ⟨s, htask⟩, hlater, ⟨v, commits, originals, hchronicle, hspans,
    hall⟩, hagain ?_ ?_ Reference.metadata_fits .none 7 ⟨1, rfl⟩ 5 fun hf => hf⟩
  -- no batch is sent twice within the request
  · simp [Reference.numberedRecord]
  · cases hall with
    | @cons _ original _ _ h hrest =>
    cases hrest
    simp only [List.mem_singleton, forall_eq]
    -- the batch of the record, or one that stands for it
    have hcoincides : ∃ e, Reference.log.entryOf 0 original = some e ∧ e.epoch = 0 := by
      rcases h.2 with heq | ⟨hcoincide, -⟩
      · exact ⟨_, entryOf_eq_some.mpr ⟨_, _, heq, rfl, rfl⟩, rfl⟩
      · generalize heq : original.1 = records at hcoincide
        cases records with
        | nil => exact hcoincide.elim
        | cons first rest =>
          exact ⟨_, entryOf_eq_some.mpr ⟨first, rest, heq, hcoincide.2.1, rfl⟩, hcoincide.2.2.1⟩
    obtain ⟨e, hentry, hepoch⟩ := hcoincides
    exact Reference.recent_of_committed hreach' hknown hchronicle' (hcommits.mem h.1) hentry hepoch

end Walstream.Log

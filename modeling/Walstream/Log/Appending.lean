import Walstream.Log.Coherence
import Walstream.Log.Decision
import Walstream.Log.Maintenance

/-!
# The draft of an append

What `prepare_append` makes of a coherent manifest: the new batches behind the old ones,
each in an object that can be read back, and the directory brought up to date.
-/

namespace Walstream.Log

open Interaction Tiling

namespace PartitionLog

/-! ## Assigned records -/

/-- The records of a batch at a base offset. -/
def assignAt (records : List Record) (baseOffset : Int) : List Record :=
  records.zipIdx.map fun x => x.1.assign baseOffset x.2

theorem assignedRecords_eq_ok {records rs : List Record} {base : Int} :
    assignedRecords records base = .ok rs ↔
      (∀ delta < records.length, i64Min ≤ base + (delta : Nat) ∧ base + (delta : Nat) ≤ i64Max) ∧
        assignAt records base = rs := by
  have hsome : ∀ delta : Nat, checkedAddI64 base delta ≠ none ↔
      i64Min ≤ base + delta ∧ base + delta ≤ i64Max := fun delta => by
    unfold checkedAddI64
    split <;> simp_all
  simp only [assignedRecords, bind_eq_ok, rejectIf_eq_ok, not_exists, not_and, List.mem_range,
    hsome, pure, Except.pure, Except.ok.injEq]
  constructor
  · rintro ⟨_, hrange, rfl⟩
    exact ⟨hrange, rfl⟩
  · rintro ⟨hrange, rfl⟩
    exact ⟨(), hrange, rfl⟩

@[simp] theorem length_assignAt (records : List Record) (base : Int) :
    (assignAt records base).length = records.length := by simp [assignAt]

theorem getElem?_assignAt (records : List Record) (base : Int) (i : Nat) :
    (assignAt records base)[i]? = records[i]?.map (·.assign base i) := by
  simp only [assignAt, List.getElem?_map, List.getElem?_zipIdx, Option.map_map]
  congr 1
  funext r
  simp

/-- A record of an assigned batch stands at its offset. -/
theorem mem_zipIdx_assignAt {records : List Record} {base : Int} {x : Record × Nat}
    (hx : x ∈ (assignAt records base).zipIdx) :
    ∃ r, records[x.2]? = some r ∧ x.1 = r.assign base x.2 := by
  have hget := List.mem_zipIdx_iff_getElem?.mp hx
  rw [getElem?_assignAt, Option.map_eq_some_iff] at hget
  obtain ⟨r, hr, heq⟩ := hget
  exact ⟨r, hr, heq.symm⟩

/-- Assigning at another offset shifts the records. -/
theorem assignAt_shift (records : List Record) (base : Int) :
    (assignAt records 0).map (Record.shift base) = assignAt records base := by
  simp only [assignAt, List.map_map]
  refine List.map_congr_left fun x _ => ?_
  simp [Record.shift, Record.assign, add_comm]

theorem validateRecords_assignAt {records : List Record} (h : validateRecords records = .ok ())
    (base : Int) : validateRecords (assignAt records base) = .ok () := by
  -- an empty batch is no valid one
  obtain _ | ⟨first, rest⟩ := records
  · cases h
  have hassign : assignAt (first :: rest) base =
      first.assign base 0 :: (rest.zipIdx 1).map fun x => x.1.assign base x.2 := by
    simp [assignAt, List.zipIdx_cons]
  -- each assigned record comes from one of the batch
  have hmem : ∀ r ∈ assignAt (first :: rest) base, ∃ r' ∈ first :: rest, ∃ i : Nat,
      r = r'.assign base i := by
    intro r hr
    obtain ⟨x, hx, rfl⟩ := List.mem_map.mp hr
    exact ⟨x.1, List.fst_mem_of_mem_zipIdx hx, x.2, rfl⟩
  simp only [validateRecords, bind_eq_ok, rejectIf_eq_ok] at h
  obtain ⟨_, hunsupported, hidentity⟩ := h
  rw [hassign]
  simp only [validateRecords, bind_eq_ok, rejectIf_eq_ok]
  rw [← hassign]
  refine ⟨(), ?_, ?_⟩
  -- nothing but offset and sequence is assigned
  · rintro ⟨r, hr, hbad⟩
    obtain ⟨r', hr', i, rfl⟩ := hmem r hr
    exact hunsupported ⟨r', hr', hbad⟩
  -- the first record has a producer, so that its sequence stays
  · rintro ⟨hid, hbad⟩
    have hid' : first.producerId ≥ 0 := hid
    have hne : first.producerId ≠ noProducerId := by
      unfold noProducerId
      omega
    have hfirst : (first.assign base 0).sequence = first.sequence := if_neg hne
    refine hidentity ⟨hid', hbad.imp (fun hneg => hfirst ▸ hneg) ?_⟩
    rintro ⟨x, hx, hbreaks⟩
    -- a record that breaks the identity did so before
    obtain ⟨r, hr, heq⟩ := mem_zipIdx_assignAt hx
    refine ⟨(r, x.2), List.mem_zipIdx_iff_getElem?.mpr hr, ?_⟩
    rw [heq] at hbreaks
    simp only [Record.breaksIdentity, hfirst] at hbreaks ⊢
    rcases hbreaks with hb | hb | hb
    · exact .inl hb
    · exact .inr (.inl hb)
    · by_cases hrid : r.producerId = first.producerId
      · refine .inr (.inr ?_)
        simpa [Record.assign, hrid, hne] using hb
      · exact .inl hrid

theorem validateTimestampSpan_assignAt (records : List Record) (base : Int) :
    validateTimestampSpan (assignAt records base) = validateTimestampSpan records := by
  have hmap : (assignAt records base).map (·.timestamp) = records.map (·.timestamp) := by
    calc (assignAt records base).map (·.timestamp)
        = (records.zipIdx.map Prod.fst).map (·.timestamp) := by
          rw [assignAt, List.map_map, List.map_map]
          rfl
      _ = records.map (·.timestamp) := by rw [List.zipIdx_map_fst]
  simp only [validateTimestampSpan, hmap]

/-! ## Record objects -/

/-- The segment of a batch that was committed at a base offset, encoded as `bytes`. -/
structure SegmentOf (log : PartitionLog) (receivedAtMs : Nat) (addition : List Record × Int)
    (bytes : List UInt8) (s : Segment) : Prop where
  base : s.baseOffset = addition.2
  count : s.recordCount = addition.1.length
  encoded : log.crates.encode (assignAt addition.1 addition.2) = .ok bytes
  length : s.byteLength = bytes.length
  sha : s.sha256 = log.crates.sha256Hex (.raw bytes)
  received : s.receivedAtMs = some receivedAtMs

variable {self : PartitionLog} {n : Notes Body} {F : LogError → Prop}

/-- An admitted batch can be encoded wherever its offsets are in range. -/
theorem Admitted.encode_assigned {batch : List Record × String} (h : self.Admitted batch)
    {base : Int} {rs : List Record} (hrs : assignedRecords batch.1 base = .ok rs) :
    ∃ bytes, self.crates.encode rs = .ok bytes ∧ 0 < bytes.length ∧
      bytes.length ≤ maxBatchBytes := by
  obtain ⟨_, bytes, inspection, hrs₀, hencode, hinspect, -, -, hlength, -⟩ := h.encoded
  obtain ⟨-, rfl⟩ := assignedRecords_eq_ok.mp hrs₀
  obtain ⟨hrange, rfl⟩ := assignedRecords_eq_ok.mp hrs
  obtain ⟨bytes', hencode', hsame⟩ := self.crates.encode_shift _ base bytes hencode (by
    intro r hr
    obtain ⟨x, hx, rfl⟩ := List.mem_map.mp hr
    have := hrange x.2 (List.snd_lt_of_mem_zipIdx hx)
    simpa [Record.assign, add_comm] using this)
  have hpos : 0 < bytes.length := by
    rw [List.length_pos_iff]
    rintro rfl
    simp [Crates.inspectRecordBatches, rejectIf, bind, Except.bind] at hinspect
  rw [assignAt_shift] at hencode'
  exact ⟨bytes', hencode', by omega, by omega⟩

/-- An admitted batch can be encoded at every offset. -/
theorem Admitted.encode_at {batch : List Record × String} (h : self.Admitted batch) {base : Int}
    (hbase : 0 ≤ base) (hend : base + batch.1.length ≤ i64Max) :
    ∃ bytes, assignedRecords batch.1 base = .ok (assignAt batch.1 base) ∧
      self.crates.encode (assignAt batch.1 base) = .ok bytes ∧ 0 < bytes.length ∧
      bytes.length ≤ maxBatchBytes := by
  have hrange : ∀ delta < batch.1.length, i64Min ≤ base + (delta : Nat) ∧
      base + (delta : Nat) ≤ i64Max := by
    intro delta hdelta
    unfold i64Min
    omega
  have hassigned := assignedRecords_eq_ok.mpr ⟨hrange, rfl⟩
  obtain ⟨bytes, hencode, hpos, hle⟩ := h.encode_assigned hassigned
  exact ⟨bytes, hassigned, hencode, hpos, hle⟩

/-- Assigned records of one producer are canonical: each sequence continues that of the first
record, or the missing one. -/
theorem validateCanonical_assignAt (s : Segment) {records : List Record}
    (hrecords : validateRecords records = .ok ()) (hspan : validateTimestampSpan records = .ok ())
    (hlength : records.length ≤ maxBatchRecords)
    (hsingle : ∀ r ∈ records, ∀ first ∈ records.head?, r.producerId = first.producerId)
    (base : Int) : validateCanonicalSegmentRecords s (assignAt records base) = .ok () := by
  -- the first record decides what the others are compared with
  obtain _ | ⟨first, rest⟩ := records
  · cases hrecords
  have hassign : assignAt (first :: rest) base =
      first.assign base 0 :: (rest.zipIdx 1).map fun x => x.1.assign base x.2 := by
    simp [assignAt, List.zipIdx_cons]
  have hvalid := validateRecords_assignAt hrecords base
  have hspan' := (validateTimestampSpan_assignAt (first :: rest) base).trans hspan
  simp only [validateRecords, bind_eq_ok, rejectIf_eq_ok] at hrecords
  obtain ⟨_, hunsupported, hidentity⟩ := hrecords
  unfold validateCanonicalSegmentRecords
  rw [hvalid, hspan', hassign]
  dsimp only [bind, Except.bind, pure, Except.pure, mapError_ok]
  rw [← hassign, rejectIf_eq_ok]
  rintro ⟨x, hx, hbad⟩
  -- each record is compared at its own position
  obtain ⟨r, hr, heq⟩ := mem_zipIdx_assignAt hx
  have hindex : x.2 < (first :: rest).length := (List.getElem?_eq_some_iff.mp hr).1
  have hsmall : maxBatchRecords < 2 ^ 31 := by decide
  have hid := hsingle r (List.mem_of_getElem? hr) first rfl
  have hfirstId : (first.assign base 0).producerId = first.producerId := rfl
  -- the producer is the same throughout
  rw [heq, hfirstId] at hbad
  rcases hbad with hb | hb | hb
  · exact hb rfl
  · omega
  -- the sequence is that of the first record, counted on
  · apply hb
    by_cases hproducer : first.producerId ≥ 0
    · have hne : first.producerId ≠ noProducerId := by
        unfold noProducerId
        omega
      rw [if_pos hproducer]
      simp only [Record.assign, hid, hne, if_false]
      by_contra hseq
      exact hidentity ⟨hproducer, .inr ⟨(r, x.2), List.mem_zipIdx_iff_getElem?.mpr hr,
        .inr (.inr hseq)⟩⟩
    -- without a producer every sequence is the missing one
    · have hnone : first.producerId = noProducerId := by
        have : ¬ first.unsupported := fun hu => hunsupported ⟨first, by simp, hu⟩
        simp only [Record.unsupported, not_or, not_lt] at this
        have := this.2.2.2.2.1
        simp only [noProducerId] at this ⊢
        omega
      rw [if_neg hproducer]
      simp [Record.assign, hid, hnone]

/-- The object of an admitted batch can be read back. -/
theorem SegmentOf.readable (kafka : Kafka self.crates) {batch : List Record × String}
    (h : self.Admitted batch) {base : Int} (hbase : 0 ≤ base)
    (hend : base + batch.1.length ≤ i64Max) {receivedAtMs : Nat} {bytes : List UInt8} {s : Segment}
    (hs : self.SegmentOf receivedAtMs (batch.1, base) bytes s) :
    self.acceptSegment s ⟨bytes.length, .raw bytes, .ok (.raw bytes)⟩ = .ok bytes := by
  -- the batch was encoded once at offset 0, where the crate has inspected it
  obtain ⟨rs, bytes₀, inspection, hrs, hencode₀, hinspect₀, hone, hcount, -, -⟩ := h.encoded
  obtain ⟨_, hassigned, -, -, -⟩ := h.encode_at hbase hend
  obtain ⟨-, rfl⟩ := assignedRecords_eq_ok.mp hrs
  -- at any other base the bytes differ in the offsets only
  have hinspect : self.crates.inspectRecordBatches bytes = .ok inspection := by
    rw [← hinspect₀]
    have hshifted : self.crates.encode ((assignAt batch.1 0).map (Record.shift base)) = .ok bytes := by
      rw [assignAt_shift]
      exact hs.encoded
    exact kafka.inspect hencode₀ hshifted
  -- decoding gives back the records that were encoded
  obtain ⟨batches, hdecode, hflatten, hheaders⟩ :=
    kafka.decode h.records h.span hassigned hs.encoded hinspect hone
  have hrecords : self.crates.decodeRecordBatches bytes =
      .ok (inspection, assignAt batch.1 base) := by
    unfold Crates.decodeRecordBatches
    simp only [bind_eq_ok, hinspect, hdecode, okOr_eq_ok, rejectIf_eq_ok, pure, Except.pure,
      Except.ok.injEq, Prod.mk.injEq]
    refine ⟨inspection, rfl, (batches, []), rfl, (), by simp, (), ?_, (), ?_, rfl, hflatten⟩
    -- the counts agree, as one batch was written
    · rw [hflatten, length_assignAt, hcount, not_not]
    · rw [hflatten, hheaders]
      simp only [Bool.not_eq_true, List.any_eq_false, decide_eq_true_eq, not_not, List.zip_map_right,
        List.mem_map]
      rintro x ⟨⟨a, b⟩, hab, rfl⟩
      obtain rfl : a = b := List.forall₂_zip (by simp) hab
      rfl
  -- the offsets are those that were assigned
  have hoffsets : validateSegmentRecords s (assignAt batch.1 base) = .ok () := by
    simp only [validateSegmentRecords, rejectIf_eq_ok, length_assignAt, hs.count, not_or, not_not,
      not_exists, not_and, true_and]
    rintro x hx
    obtain ⟨r, -, heq⟩ := mem_zipIdx_assignAt hx
    simp [heq, Record.assign, hs.base]
  -- the crate reads one producer from one batch
  have hsingle : ∀ r ∈ batch.1, ∀ first ∈ batch.1.head?, r.producerId = first.producerId := by
    intro r hr first hfirst
    obtain ⟨i, hi⟩ := List.mem_iff_getElem?.mp hr
    exact kafka.single hencode₀ hinspect₀ hone (r.assign 0 i)
      (List.mem_of_getElem? (by rw [getElem?_assignAt, hi]; rfl)) (first.assign 0 0) (by
        rw [Option.mem_def, List.head?_eq_getElem?] at hfirst ⊢
        rw [getElem?_assignAt, hfirst]
        rfl)
  have hcanonical := validateCanonical_assignAt s h.records h.span h.length_le hsingle base
  have hsize : self.crates.size (.raw bytes) = s.byteLength := hs.length.symm
  have hbody : self.crates.collectBounded ⟨bytes.length, .raw bytes, .ok (.raw bytes)⟩
      s.byteLength = .ok (.raw bytes) := by
    simp [Crates.collectBounded, hsize]
  -- each check of `accept_segment` in turn
  unfold acceptSegment
  simp only [bind_eq_ok, rejectIf_eq_ok, hbody, mapError_ok, Except.ok.injEq, okOr_eq_ok]
  refine ⟨(), by simp [hs.length], .raw bytes, rfl, (), by simp [hsize, hs.sha], bytes, rfl, ?_⟩
  simp [hrecords, hoffsets, hcanonical, hs.encoded, hone, hcount, hs.count, pure, Except.pure]

/-! ## The new batches -/

/-- The object of the segment holds the batch. -/
def Holds (log : PartitionLog) (content : String → Option Body) (receivedAtMs : Nat)
    (addition : List Record × Int) (s : Segment) : Prop :=
  ∃ bytes, log.SegmentOf receivedAtMs addition bytes s ∧ log.StoredSegment content s bytes

theorem Holds.grows {n' : Notes Body} {receivedAtMs : Nat} {addition : List Record × Int}
    {s : Segment} (h : self.Holds n.content receivedAtMs addition s) (hn : n.Grows n') :
    self.Holds n'.content receivedAtMs addition s := by
  obtain ⟨bytes, hof, hstored⟩ := h
  exact ⟨bytes, hof, hstored.mono (by rw [hstored.body, hn.content _ _ hstored.body])⟩

/-- The segment of an admitted batch is valid. -/
theorem SegmentOf.valid {records : List Record} {fingerprint : String} {base : Int}
    {receivedAtMs : Nat} {bytes : List UInt8} {s : Segment} (h : self.Admitted (records, fingerprint))
    (hbase : 0 ≤ base) (hend : base + records.length ≤ i64Max) (id : Uuid)
    (hs : self.SegmentOf receivedAtMs (records, base) bytes s) (hobject : s.object = self.segmentPath id) :
    self.ValidSegment s := by
  obtain ⟨bytes', -, hencode, hpos, hle⟩ := h.encode_at hbase hend
  obtain rfl : bytes = bytes' := by
    have := hs.encoded.symm.trans hencode
    simpa using this
  have hcount : 0 < records.length := List.length_pos_iff.mpr h.ne_nil
  refine ⟨by rw [hs.count]; exact hcount, by rw [hs.count]; exact h.length_le,
    by rw [hs.length]; exact hpos, by rw [hs.length]; exact hle,
    hobject ▸ self.segmentPath_starts id, hobject ▸ self.segmentPath_ends id,
    by rw [hs.sha]; exact self.crates.sha256Hex_valid _, ?_, ?_⟩
  · rw [hs.base, hs.count]
    unfold i64Min
    omega
  · rw [Segment.endOffset, hs.base, hs.count]
    exact hend

/-- What entering new batches makes of a root. -/
structure Entered (log : PartitionLog) (n n' : Notes Body) (receivedAtMs : Nat)
    (additions : List (List Record × Int)) (base : List String) (root root' : Root)
    (segments : List Segment) (e : Int) (new : List Segment) : Prop where
  fields : root' = { root with
    revision := root'.revision
    nextOffset := root'.nextOffset
    tree := root'.tree
    tail := root'.tail }
  revision : root'.revision = root.revision + additions.length
  revision_le : root.revision ≤ u64Max → root'.revision ≤ u64Max
  unchanged : additions = [] → root' = root
  next : additions ≠ [] → root'.nextOffset = e ∧ root'.tail ≠ []
  holds : List.Forall₂ (log.Holds n'.content receivedAtMs) additions new
  fresh : ∀ s ∈ new, n.content s.object = none ∧ log.Named s.object
  carries : log.Carries n n' base root' (segments ++ new) e

/-- What one addition and those behind it have entered together. -/
theorem Entered.cons {n' : Notes Body} {receivedAtMs : Nat} {addition : List Record × Int}
    {additions : List (List Record × Int)} {base : List String} {root root₁ root' : Root}
    {s : Segment} {segments new : List Segment} {e : Int}
    (hroot : root₁ = { root with tree := root₁.tree, tail := root₁.tail })
    (hrevision : root₁.revision + 1 ≤ u64Max) (hend : additions = [] → s.endOffset = e)
    (hholds : self.Holds n'.content receivedAtMs addition s)
    (hfresh : n.content s.object = none ∧ self.Named s.object)
    (h : self.Entered n n' receivedAtMs additions base { root₁ with
      revision := root₁.revision + 1
      nextOffset := s.endOffset
      tail := root₁.tail ++ [s] } root' (segments ++ [s]) e new) :
    self.Entered n n' receivedAtMs (addition :: additions) base root root' segments e
      (s :: new) where
  fields := by rw [h.fields, hroot]
  revision := by
    have hsame : root₁.revision = root.revision := by rw [hroot]
    simp only [h.revision, hsame, List.length_cons]
    omega
  revision_le := fun _ => h.revision_le hrevision
  unchanged := by simp
  next := fun _ => by
    cases additions with
    -- the last offset is that of the addition
    | nil =>
      rw [h.unchanged rfl]
      exact ⟨hend rfl, by simp⟩
    | cons a rest => exact h.next (List.cons_ne_nil _ _)
  holds := .cons hholds h.holds
  fresh := List.forall_mem_cons.mpr ⟨hfresh, h.fresh⟩
  carries := by simpa using h.carries

/-- An object of the index, a page or a segment, was there before or is new. -/
theorem Entered.origins {n' : Notes Body} {receivedAtMs : Nat}
    {additions : List (List Record × Int)} {base os : List String} {root root' : Root}
    {segments new : List Segment} {e : Int}
    (h : self.Entered n n' receivedAtMs additions base root root' segments e new)
    (hos : ∀ o ∈ os, o ∈ base ∨ n.content o = none ∧ self.Named o) :
    ∀ o ∈ os ++ (segments ++ new).map (·.object),
      o ∈ base ++ segments.map (·.object) ∨ n.content o = none ∧ self.Named o := by
  intro o ho
  rcases List.mem_append.mp ho with ho | ho
  · exact (hos o ho).imp_left (List.mem_append_left _)
  · rw [List.map_append, List.mem_append] at ho
    rcases ho with ho | ho
    · exact .inl (List.mem_append_right _ ho)
    · obtain ⟨s, hs, rfl⟩ := List.mem_map.mp ho
      exact .inr (h.fresh s hs)

/-- New batches are entered one by one. -/
theorem appendAdditions_drafts (htopic : validateTopic self.topic = .ok ())
    (hF : ¬ IndexPagesFit self → F (invalid "index page exceeds byte limit"))
    {receivedAtMs : Nat} {n : Notes Body} {base : List String} :
    ∀ {additions : List (List Record × Int)} {n₁ : Notes Body} {root : Root}
      {segments : List Segment} {e e' : Int}, n.Grows n₁ →
      self.Carries n n₁ base root segments e → 0 ≤ e → AdditionTiles additions e e' → e' ≤ i64Max →
      (∀ a ∈ additions, ∃ fingerprint, self.Admitted (a.1, fingerprint)) →
      (u64Max < root.revision + additions.length → F .revisionOverflow) →
      self.Drafts (self.appendAdditions receivedAtMs additions root) n₁ (fun root' n' =>
        ∃ new, self.Entered n n' receivedAtMs additions base root root' segments e' new) F := by
  intro additions
  -- over the additions, each of which needs a name and a revision of its own
  induction additions with
  | nil =>
    intro n₁ root segments e e' hn h _ htiles _ _ _
    obtain rfl : e = e' := htiles
    -- nothing is left to enter
    exact drafting_pure ⟨[], rfl, rfl, id, fun _ => rfl, by simp, .nil, by simp, by simpa using h⟩
  | cons addition additions ih =>
    obtain ⟨records, baseOffset⟩ := addition
    intro n₁ root segments e e' hn h hstart htiles hfits hadmitted hoverflow
    obtain ⟨hbase, -, htilesRest⟩ := htiles
    simp only at hbase htilesRest
    subst hbase
    obtain ⟨fingerprint, hbatch⟩ := hadmitted _ List.mem_cons_self
    have hend : baseOffset + records.length ≤ i64Max := htilesRest.le.trans hfits
    -- the batch can be encoded at the offset that it gets
    obtain ⟨bytes, hassigned, hencode, -, -⟩ := hbatch.encode_at hstart hend
    unfold appendAdditions
    -- a full tail goes into the tree first
    refine drafting_bind (drafting_mono (sealFullTail_drafts htopic hF hn h)
      (fun r n₂ hn₂ hr => And.intro hn₂ hr) fun _ => id) ?_
    rintro root₁ n₂ - ⟨hn₂, hroot₁, hroom, os, hindexed, hos⟩
    have hsame : root₁.revision = root.revision := by rw [hroot₁]
    refine drafts_check_bind_ok (b := bytes) ?_ ?_
    · rw [hassigned]
      exact encodeRecords_eq_ok.mpr hencode
    -- the object has a fresh name
    refine drafts_newV4 fun id hid => ?_
    refine drafts_check_bind (fun revision hrevision => ?_) fun x hx => ?_
    · rw [okOr_eq_ok, checkedAddU64_eq_some] at hrevision
      obtain ⟨hrevisionLe, rfl⟩ := hrevision
      have hnone : n₂.content (self.segmentPath id) = none := hid _ (self.segmentPath_mem id)
      refine drafts_create (.inr (self.segmentPath_mem id)) hnone ?_
      -- the notes with the new object
      have hn₃ : n₂.Grows ((n₂.draw (self.names id)).write (self.segmentPath id) (.raw bytes)) :=
        (Notes.grows_draw _ _).trans (Notes.grows_write (.inr (self.segmentPath_mem id)) hnone)
      generalize hn₃eq : (n₂.draw (self.names id)).write (self.segmentPath id) (.raw bytes) = n₃
      rw [hn₃eq] at hn₃
      have hsegment : self.SegmentOf receivedAtMs (records, baseOffset) bytes
          ⟨self.segmentPath id, baseOffset, records.length, bytes.length,
            self.crates.sha256Hex (.raw bytes), some receivedAtMs⟩ := ⟨rfl, rfl, hencode, rfl, rfl, rfl⟩
      have hstored : self.StoredSegment n₃.content
          ⟨self.segmentPath id, baseOffset, records.length, bytes.length,
            self.crates.sha256Hex (.raw bytes), some receivedAtMs⟩ bytes :=
        ⟨by rw [← hn₃eq]; simp, rfl, ⟨id, rfl⟩, fun kafka => hsegment.readable kafka hbatch hstart hend⟩
      have hnew : self.segmentPath id ∉ os ++ segments.map (·.object) := by
        rw [List.mem_append, not_or]
        exact ⟨fun ho => hindexed.ne_none ho hnone, fun ho => hindexed.stored.ne_none ho hnone⟩
      generalize hs : (⟨self.segmentPath id, baseOffset, records.length, bytes.length,
            self.crates.sha256Hex (.raw bytes), some receivedAtMs⟩ : Segment) = s at hsegment hstored
      have hobject : s.object = self.segmentPath id := by rw [← hs]
      -- the entered segment follows the others
      have hpush := (hindexed.grows hn₃).push { root₁ with
          revision := root₁.revision + 1
          nextOffset := baseOffset + records.length
          tail := root₁.tail ++ [s] } hroom (by rw [← hs])
        (hsegment.valid hbatch hstart hend id hobject) hstored (hobject ▸ hnew) rfl rfl rfl
      have hendOffset : s.endOffset = baseOffset + records.length := by rw [← hs]; rfl
      rw [hendOffset] at hpush
      have hos₃ : ∀ o ∈ os, o ∈ base ∨ n.content o = none ∧ self.Named o := hos
      -- the rest is entered after it
      refine drafting_mono (ih ((hn.trans hn₂).trans hn₃) ⟨os, hpush, hos₃⟩ (by omega) htilesRest hfits
        (fun a ha => hadmitted a (List.mem_cons_of_mem _ ha)) fun hmany => hoverflow ?_) ?_
        fun _ h => h
      · simp only [List.length_cons] at hmany ⊢
        omega
      rintro root' n' hn' ⟨new, hentered⟩
      refine ⟨s :: new, .cons hroot₁ hrevisionLe (fun hnil => ?_)
        (Holds.grows ⟨bytes, hsegment, hstored⟩ hn') ?_ (hendOffset ▸ hentered)⟩
      · subst hnil
        exact hendOffset.trans htilesRest
      · rw [hobject]
        exact ⟨Grows.none (hn.trans hn₂) hnone, ⟨id, self.segmentPath_mem id⟩⟩
    -- the revision has no successor
    · obtain ⟨hnone, rfl⟩ := okOr_eq_error.mp hx
      refine hoverflow ?_
      unfold checkedAddU64 at hnone
      rw [List.length_cons]
      split at hnone
      · cases hnone
      · omega

/-! ## The root to which the batches are added -/

/-- The root that replaces the manifest is of the newest schema, keeps its adoption time, or
takes on that of the change, and its revision is later by `steps`. -/
structure Renewed (m : LogManifest) (nowMs steps : Nat) (root : Root) : Prop where
  schema : root.schema = indexSchema
  adopted : root.adoptedAtMs = some (adoptionTime m nowMs)
  revision : root.revision = m.revision + steps

/-- The root takes over what the manifest stands for. -/
structure Adopted (log : PartitionLog) (n n' : Notes Body) (m : LogManifest) (nowMs : Nat)
    (v : LogState) (base : List String) (root : Root) : Prop where
  carries : log.Carries n n' base root v.segments v.next
  renewed : Renewed m nowMs 0 root
  start : root.startOffset = v.start
  next : root.nextOffset = v.next
  producers : root.producers = m.producers

variable {m : LogManifest} {objects : List String} {v : LogState}

/-- The objects of a manifest are the pages of its tree, its segments, and the pages of its
directory. -/
structure Parts (log : PartitionLog) (content : String → Option Body) (m : LogManifest)
    (objects : List String) (v : LogState) (os ps : List String) : Prop where
  directory : log.Directory content v.next m.producers ps v.producers
  objects_eq : objects = os ++ v.segments.map (·.object) ++ ps
  nodup : objects.Nodup
  os_ne_none : ∀ o ∈ os, content o ≠ none

theorem adoptManifest_drafts (htopic : validateTopic self.topic = .ok ())
    (hF : ¬ IndexPagesFit self → F (invalid "index page exceeds byte limit"))
    (nowMs : Nat) (h : self.Coherent n.content m objects v) :
    ∃ os ps, self.Parts n.content m objects v os ps ∧
      self.Drafts (self.adoptManifest m nowMs) n (fun root n' => self.Adopted n n' m nowMs v os root) F := by
  cases m with
  -- a legacy manifest has no pages and is migrated
  | legacy m =>
    have hstate := h.state
    subst hstate
    have hvalid := h.valid
    refine ⟨[], [], ⟨.nil, by simp [h.objects], ?_, by simp⟩, ?_⟩
    · rw [h.objects]
      exact (validateManifest_eq_ok.mp hvalid).2.2.2.2
    · refine drafting_mono (migrateManifest_drafts htopic hF hvalid h.stored) ?_ fun _ h => h
      rintro root n' - ⟨hcarries, -, hschema, hrevision, -, hstart, hadopted, hnext, hproducers⟩
      exact ⟨hcarries, ⟨hschema, hadopted, hrevision⟩, hstart, hnext, hproducers⟩
  -- an indexed manifest is taken as it is
  | indexed root =>
    obtain ⟨os, ps, hindexed, hdirectory, heq⟩ := h.pages
    refine ⟨os, ps, ⟨h.next ▸ hdirectory, heq, h.nodup, fun o ho => hindexed.ne_none ho⟩, ?_⟩
    unfold adoptManifest
    dsimp only
    -- only a root of the first schema gets a later one
    split
    · exact drafting_pure ⟨⟨os, hindexed.congr rfl rfl rfl, fun o ho => .inl ho⟩, ⟨rfl, rfl, rfl⟩,
        h.start.symm, h.next.symm, rfl⟩
    -- a root of the second schema has been adopted already
    · rename_i hschema
      push Not at hschema
      obtain ⟨time, htime⟩ := Option.ne_none_iff_exists'.mp
        (h.valid.adopted.resolve_left (by rw [hschema]; decide))
      exact drafting_pure ⟨⟨os, hindexed, fun o ho => .inl ho⟩,
        ⟨hschema, by simp [adoptionTime, htime], rfl⟩, h.start.symm, h.next.symm, rfl⟩

/-- The root before the first new batch. -/
theorem appendRoot_drafts (htopic : validateTopic self.topic = .ok ())
    (hF : ¬ IndexPagesFit self → F (invalid "index page exceeds byte limit"))
    (nowMs : Nat) (h : self.Coherent n.content m objects v) :
    ∃ os ps, self.Parts n.content m objects v os ps ∧
      self.Drafts (self.appendRoot m nowMs) n (fun root n' => self.Adopted n n' m nowMs v os root) F := by
  obtain ⟨os, ps, hparts, hadopt⟩ := adoptManifest_drafts htopic hF nowMs h
  refine ⟨os, ps, hparts, ?_⟩
  unfold appendRoot
  refine drafting_bind (drafting_mono hadopt (fun r n₁ hn₁ hr => And.intro hn₁ hr) fun _ h => h) ?_
  rintro root n₁ - ⟨hn₁, hroot⟩
  refine drafting_mono (sealFullTail_drafts htopic hF hn₁ hroot.carries) ?_ fun _ h => h
  rintro root' n' - ⟨hfields, -, hcarries⟩
  have hrenewed : Renewed m nowMs 0 root' :=
    ⟨(congrArg Root.schema hfields).trans hroot.renewed.schema,
      (congrArg Root.adoptedAtMs hfields).trans hroot.renewed.adopted,
      (congrArg Root.revision hfields).trans hroot.renewed.revision⟩
  exact ⟨hcarries, hrenewed, (congrArg Root.startOffset hfields).trans hroot.start,
    (congrArg Root.nextOffset hfields).trans hroot.next,
    (congrArg Root.producers hfields).trans hroot.producers⟩

/-! ## The whole draft -/

/-- What `prepare_append` publishes for a decision with new batches. -/
structure Appended (log : PartitionLog) (n n' : Notes Body) (receivedAtMs : Nat) (m : LogManifest)
    (objects : List String) (v : LogState) (d : Decision) (root : Root) (objects' : List String)
    (new : List Segment) : Prop where
  coherent : log.CoherentRoot n'.content root objects'
    ⟨v.start, d.nextOffset, v.segments ++ new, d.directory v.producers⟩
  holds : List.Forall₂ (log.Holds n'.content receivedAtMs) d.additions new
  objects : ∀ o ∈ objects', o ∈ objects ∨ n.content o = none ∧ log.Named o
  renewed : Renewed m receivedAtMs d.additions.length root

theorem mem_foldl_upsert {states ss : List ProducerState} {p : ProducerState}
    (h : p ∈ states.foldl (fun ss state => upsert state ss) ss) : p ∈ states ∨ p ∈ ss := by
  induction states generalizing ss with
  | nil => exact .inr h
  | cons state states ih =>
    rcases ih h with hp | hp
    · exact .inl (List.mem_cons_of_mem _ hp)
    · rcases mem_upsert hp with rfl | hp
      · exact .inl List.mem_cons_self
      · exact .inr hp

/-- The new batches and the states of the request are entered. -/
private theorem enter_drafts (htopic : validateTopic self.topic = .ok ())
    (hF : ∀ x, Excused self x → F x) (receivedAtMs : Nat) {d : Decision}
    (h : self.Coherent n.content m objects v) (hsound : d.Sound v.producers v.next)
    (hadmitted : ∀ a ∈ d.additions, ∃ fingerprint, self.Admitted (a.1, fingerprint))
    (hne : d.additions ≠ []) :
    self.Drafts (do
      let root ← self.appendRoot m receivedAtMs
      let root ← self.appendAdditions receivedAtMs d.additions root
      let producers ← self.updateProducers d.nextOffset d.states root.producers
      return { root with producers := producers }) n
      (fun root n' => ∃ objects' new,
        self.Appended n n' receivedAtMs m objects v d root objects' new) F := by
  -- the manifest becomes a root, the batches are entered, and then the states
  obtain ⟨os, ps, hparts, hroot⟩ := appendRoot_drafts htopic
    (fun hbig => hF _ (excused_of_page hbig _)) receivedAtMs h
  refine drafting_bind (drafting_mono hroot (fun r n₁ hn₁ hr => And.intro hn₁ hr) fun _ h => h) ?_
  rintro root₁ n₁ - ⟨hn₁, hadopted⟩
  have hstart : 0 ≤ v.next := h.start_nonneg.trans h.tiles.le
  refine drafting_bind (drafting_mono (appendAdditions_drafts htopic
    (fun hbig => hF _ (excused_of_page hbig _)) hn₁ hadopted.carries hstart hsound.tiles hsound.fits
    hadmitted fun _ => hF _ (excused_of_not_damage (by simp [LogError.Damage])))
    (fun r n₂ hn₂ hr => And.intro hn₂ hr) fun _ h => h) ?_
  rintro root₂ n₂ - ⟨hn₂, new, hentered⟩
  -- entering batches leaves the directory alone
  have hproducers : root₂.producers = m.producers := by
    rw [congrArg Root.producers hentered.fields]
    exact hadopted.producers
  obtain ⟨hnext, htail⟩ := hentered.next hne
  obtain ⟨hnodupLeft, hnodupPs, hapart⟩ := List.nodup_append.mp (hparts.objects_eq ▸ hparts.nodup)
  -- the old directory is still there, and its range has grown
  have hdirectory : self.Directory n₂.content d.nextOffset root₂.producers ps v.producers := by
    rw [hproducers]
    exact Grove.mono_next (Grove.grows hparts.directory (hn₁.trans hn₂)) hsound.tiles.le
  have hpages : ¬ ProducerPagesFit self → ∀ x, F x := fun hbig x =>
    hF x fun fits => absurd fits.toProducerPagesFit hbig
  refine drafting_bind (drafting_mono (updateProducers_drafts htopic hpages hsound.fits hdirectory
    hnodupPs hsound.valid h.ids_fit hsound.ids) (fun r n₃ hn₃ hr => And.intro hn₃ hr)
    fun _ h => h) ?_
  rintro producers n₃ - ⟨hn₃, ps', hdirectory', hnodupPs', hps'⟩
  -- the pages of the new index are old ones that are kept, or new ones
  obtain ⟨os', hindexed, hos'⟩ := hentered.carries
  -- all names of the index are taken, so that the new directory uses others
  have hne_none : ∀ o ∈ os' ++ (v.segments ++ new).map (·.object), n₂.content o ≠ none := by
    intro o ho
    rcases List.mem_append.mp ho with ho | ho
    · exact hindexed.ne_none ho
    · exact hindexed.stored.ne_none ho
  -- no page of the old directory becomes part of the index
  have horigins := hentered.origins hos'
  have hold : ∀ o ∈ os' ++ (v.segments ++ new).map (·.object), o ∉ ps := by
    intro o ho hmem
    rcases horigins o ho with hos | ⟨hnone, -⟩
    · exact hapart o hos o hmem rfl
    · exact Grove.content_ne_none hparts.directory hmem hnone
  have hrenewed : Renewed m receivedAtMs d.additions.length { root₂ with producers := producers } :=
    ⟨(congrArg Root.schema hentered.fields).trans hadopted.renewed.schema,
      (congrArg Root.adoptedAtMs hentered.fields).trans hadopted.renewed.adopted, by
        have := hadopted.renewed.revision
        have := hentered.revision
        simp only
        omega⟩
  -- each addition has counted once
  have hrevision : root₂.revision = m.revision + d.additions.length := hrenewed.revision
  have hindexed' : self.Indexed n₃.content { root₂ with producers := producers } os'
      (v.segments ++ new) d.nextOffset := (hindexed.grows hn₃).congr rfl rfl rfl
  have hcount : (v.segments ++ new).length ≤ root₂.revision := by
    have := h.count
    have := hentered.holds.length_eq
    rw [List.length_append]
    omega
  -- what the appended root needs, part by part
  refine drafting_pure ⟨os' ++ (v.segments ++ new).map (·.object) ++ ps', new, ⟨?_, ⟨os', ps',
    hindexed', ?_, rfl⟩, ?_, ?_, hnext.symm, hsound.fits, ?_, hcount,
    hentered.revision_le (by rw [hadopted.renewed.revision]; exact h.revision_fits)⟩, ?_, ?_, hrenewed⟩
  · refine hindexed'.validRoot ?_ ?_ hnext hsound.fits ?_ hcount (fun hnil => absurd hnil htail)
    · exact hrenewed.schema
    · exact Option.ne_none_iff_exists'.mpr ⟨_, hrenewed.adopted⟩
    · intro r hr
      exact Grove.roots_valid hdirectory' r (by simpa using hr)
  · simp only [hnext]
    exact hdirectory'
  -- index and directory share no object
  · refine List.nodup_append.mpr ⟨hindexed.nodup, hnodupPs', ?_⟩
    rintro o ho o' ho' rfl
    rcases hps' o ho' with hmem | ⟨hnone, -⟩
    · exact hold o ho hmem
    · exact hne_none o ho hnone
  · have := congrArg Root.startOffset hentered.fields
    simp only at this ⊢
    rw [this, hadopted.start]
  -- the ids of the states fit, the old ones and the new ones
  · intro p hp
    rcases mem_foldl_upsert hp with hp | hp
    · exact hsound.ids p hp
    · exact h.ids_fit p hp
  · exact hentered.holds.imp fun _ _ hholds => hholds.grows hn₃
  -- an object of the root is an old one, or a new one with a free name
  · intro o ho
    rw [hparts.objects_eq]
    rcases List.mem_append.mp ho with ho | ho
    · exact (horigins o ho).imp_left (List.mem_append_left _)
    · rcases hps' o ho with hmem | ⟨hnone, hnamed⟩
      · exact .inl (List.mem_append_right _ hmem)
      · exact .inr ⟨Grows.none (hn₁.trans hn₂) hnone, hnamed⟩

/-- What `prepare_append` hands to the conditional write. -/
def Prepared (log : PartitionLog) (n n' : Notes Body) (receivedAtMs : Nat) (m : LogManifest)
    (objects : List String) (v : LogState) (batches : List (List Record × String)) :
    AppendResult × Option Root → Prop
  | (result, none) => ∃ d, judge v.producers batches (.start v.next) = .ok d ∧
      result = d.result ∧ d.additions = [] ∧ n' = n
  | (result, some root) => ∃ d, judge v.producers batches (.start v.next) = .ok d ∧
      result = d.result ∧ d.additions ≠ [] ∧
      ∃ objects' new, log.Appended n n' receivedAtMs m objects v d root objects' new

/-- Why `prepare_append` fails: the request is refused, or its new batches cannot be stored. -/
def Refused (log : PartitionLog) (v : LogState) (batches : List (List Record × String))
    (x : LogError) : Prop :=
  judge v.producers batches (.start v.next) = .error x ∨
    ∃ d, judge v.producers batches (.start v.next) = .ok d ∧ d.additions ≠ [] ∧ Excused log x

theorem prepareAppend_drafts (htopic : validateTopic self.topic = .ok ()) {receivedAtMs : Nat}
    {batches : List (List Record × String)} (hbatches : ∀ batch ∈ batches, self.Admitted batch)
    (h : self.Coherent n.content m objects v) :
    self.Drafts (self.prepareAppend m batches receivedAtMs) n
      (fun out n' => self.Prepared n n' receivedAtMs m objects v batches out)
      (self.Refused v batches) := by
  obtain ⟨ps, hdirectory, -⟩ := h.directory
  have hstart : 0 ≤ v.next := h.start_nonneg.trans h.tiles.le
  unfold prepareAppend
  rw [← h.next_eq]
  dsimp only
  -- the batches are judged first, which only reads
  refine drafting_bind (drafting_mono (decideBatches_drafts hdirectory) (fun _ _ _ h => h)
    fun x hx => .inl hx) ?_
  rintro d n' - ⟨hjudge, hn⟩
  rw [hn]
  split
  -- nothing is new, so that nothing is written
  · rename_i hnil
    exact drafting_pure ⟨d, hjudge, rfl, hnil, rfl⟩
  -- the judged additions are entered
  · rename_i hne
    have hsound := judge_sound hbatches h.valid_states hstart h.fits_next hjudge
    have hadditions := judge_additions hbatches h.valid_states hstart h.fits_next hjudge
    have henter := enter_drafts (F := self.Refused v batches) htopic
      (fun x hx => .inr ⟨d, hjudge, hne, hx⟩) receivedAtMs h hsound
      (fun a ha => (hadditions a ha).imp fun _ hmem => hbatches _ hmem) hne
    have hbind := drafting_bind (f := fun root => pure (d.result, some root)) henter
      (Q := fun out n' => self.Prepared n n' receivedAtMs m objects v batches out)
      fun root n' _ ⟨objects', new, happended⟩ =>
        drafting_pure ⟨d, hjudge, rfl, hne, objects', new, happended⟩
    simpa using hbind

private theorem accept_error {state : ProducerState} {epoch sequence nextOffset : Int}
    {count : Nat} {fingerprint : String} {x : LogError}
    (h : state.accept epoch sequence count fingerprint nextOffset = .error x) : ¬ x.Damage := by
  simp only [ProducerState.accept, bind_eq_error, rejectIf_eq_error] at h
  rcases h with ⟨-, rfl⟩ | ⟨_, -, ⟨-, rfl⟩ | ⟨_, -, h⟩⟩
  · simp [LogError.Damage]
  · simp [LogError.Damage]
  · split at h
    · simp only [bind_eq_error, rejectIf_eq_error, pure, Except.pure, reduceCtorEq, and_false,
        exists_false, or_false] at h
      obtain ⟨-, rfl⟩ := h
      simp [LogError.Damage]
    · simp only [bind_eq_error, rejectIf_eq_error, okOr_eq_error, pure, Except.pure, reduceCtorEq,
        and_false, exists_false, or_false] at h
      rcases h with ⟨-, rfl⟩ | ⟨_, -, -, rfl⟩ <;> simp [LogError.Damage]

/-- A refusal of the request does not speak of damage. -/
theorem judge_error {ss : List ProducerState} {batches : List (List Record × String)}
    {d : Decision} {x : LogError} (h : judge ss batches d = .error x) : ¬ x.Damage := by
  induction batches generalizing d with
  | nil => cases h
  | cons batch batches ih =>
    rw [judge, bind_eq_error] at h
    rcases h with h | ⟨d', -, h⟩
    · obtain ⟨_ | ⟨first, rest⟩, fingerprint⟩ := batch
      · cases h; simp [LogError.Damage]
      · unfold judgeBatch at h
        dsimp only at h
        split at h
        · simp only [bind_eq_error, pure, Except.pure, reduceCtorEq, and_false, exists_false,
            or_false] at h
          exact accept_error h
        · simp only [bind_eq_error, anonymousResult, okOr_eq_error, pure, Except.pure, reduceCtorEq,
            and_false, exists_false, or_false] at h
          obtain ⟨-, rfl⟩ := h
          simp [LogError.Damage]
    · exact ih h

theorem Refused.excused {batches : List (List Record × String)} {x : LogError}
    (h : self.Refused v batches x) : Excused self x := by
  rcases h with h | ⟨d, -, -, h⟩
  · exact excused_of_not_damage (judge_error h)
  · exact h

end PartitionLog

end Walstream.Log

import Walstream.Wire.Varints

/-!
# What the raw record validator accepts

The grammar of Kafka v2 record batches, as far as the broker accepts them: length-delimited
records in length-delimited batches, with bounds on headers and on the numbers that the decoder
will add. `validate_raw_records` of `codec.rs` accepts exactly this grammar.
-/

namespace Walstream.Wire

open Framing Log

/-! ## The grammar -/

/-- A length and as many bytes. -/
def NonNullBytes (bytes : Bytes) : Prop :=
  ∃ head body, bytes = head ++ body ∧ SignedVarint 5 32 body.length head

/-- A length and as many bytes; the length −1 is a null. -/
def NullableBytes (bytes : Bytes) : Prop :=
  ∃ head body, bytes = head ++ body ∧
    (SignedVarint 5 32 body.length head ∨ (SignedVarint 5 32 (-1) head ∧ body = []))

/-- So many headers: each one is a key that is not null, and a value. -/
def Headers : (count : Nat) → Bytes → Prop
  | 0, bytes => bytes = []
  | count + 1, bytes => ∃ key value rest, bytes = key ++ (value ++ rest) ∧ NonNullBytes key ∧
      NullableBytes value ∧ Headers count rest

/-- The sum is a number of the decoder. -/
def FitsI64 (n : Int) : Prop := i64Min ≤ n ∧ n ≤ i64Max

/-- The body of the record with this ordinal in its batch. -/
structure RecordBody (info : BatchDecodeInfo) (ordinal headerCount : Nat) (bytes : Bytes) :
    Prop where
  fields : ∃ timestampDelta offsetDelta timestamp offset key value count headers,
    bytes = [0] ++ (timestamp ++ (offset ++ (key ++ (value ++ (count ++ headers))))) ∧
    SignedVarint 10 64 timestampDelta timestamp ∧ FitsI64 (info.minTimestamp + timestampDelta) ∧
    SignedVarint 5 32 offsetDelta offset ∧ 0 ≤ offsetDelta ∧
    FitsI64 (info.minOffset + offsetDelta) ∧
    (0 ≤ info.producerId → 0 ≤ info.baseSequence ∧ offsetDelta = ordinal) ∧
    NullableBytes key ∧ NullableBytes value ∧ SignedVarint 5 32 headerCount count ∧
    Headers headerCount headers
  headers_le : headerCount ≤ maxHeadersPerRecord

/-- Length-delimited records with these header counts, from an ordinal on. -/
def Records (info : BatchDecodeInfo) : (ordinal : Nat) → (counts : List Nat) → Bytes → Prop
  | _, [], bytes => bytes = []
  | ordinal, headerCount :: counts, bytes => ∃ head body rest, bytes = head ++ (body ++ rest) ∧
      SignedVarint 5 32 body.length head ∧ RecordBody info ordinal headerCount body ∧
      Records info (ordinal + 1) counts rest

/-- One batch: a base offset, a length, and as many bytes, the records from byte 49 on. -/
structure RecordBatch (info : BatchDecodeInfo) (counts : List Nat) (bytes : Bytes) : Prop where
  framed : ∃ head body, bytes = head ++ body ∧ head.length = 12 ∧
    signed (head.drop 8) = body.length ∧ 49 ≤ body.length ∧
    (0 ≤ info.producerId → signed ((body.drop 11).take 4) = info.recordCount - 1) ∧
    Records info 0 counts (body.drop 49)
  length_eq : counts.length = info.recordCount

/-- The batches one after another, with the header counts of all their records. -/
def Batches : List BatchDecodeInfo → (counts : List Nat) → Bytes → Prop
  | [], counts, bytes => counts = [] ∧ bytes = []
  | info :: infos, counts, bytes => ∃ first rest batch batches, counts = first ++ rest ∧
      bytes = batch ++ batches ∧ RecordBatch info first batch ∧ Batches infos rest batches

/-- The record batches that the broker accepts. -/
structure RecordBatches (infos : List BatchDecodeInfo) (counts : List Nat) (bytes : Bytes) :
    Prop where
  batches : Batches infos counts bytes
  headers_le : counts.sum ≤ maxHeadersPerRequest

/-! ## Readers that take everything -/

/-- The reader returns `a` exactly on the slices with `F a`, of which it leaves nothing. -/
def TakesAll {α : Type} (x : RawReader α) (F : α → Bytes → Prop) : Prop :=
  ∀ input a rest, x.run input = .ok (a, rest) ↔ rest = [] ∧ F a input

section TakesAll

variable {α β : Type} {x : RawReader α} {F F' : α → Bytes → Prop}

theorem TakesAll.congr (h : TakesAll x F) (hF : ∀ a bytes, F a bytes ↔ F' a bytes) :
    TakesAll x F' := by
  intro input a rest
  rw [h]
  simp only [hF]

theorem Takes.bindAll {f : α → RawReader β} {G : α → β → Bytes → Prop} (hx : Takes x F)
    (hf : ∀ a, TakesAll (f a) (G a)) :
    TakesAll (x >>= f) fun b bytes => ∃ a first second, bytes = first ++ second ∧ F a first ∧
      G a b second := by
  intro input b rest
  rw [run_bind_eq_ok]
  constructor
  · rintro ⟨a, mid, hrun, hrest⟩
    obtain ⟨first, rfl, hfirst⟩ := (hx input a mid).mp hrun
    obtain ⟨rfl, hsecond⟩ := (hf a mid b rest).mp hrest
    exact ⟨rfl, a, first, mid, rfl, hfirst, hsecond⟩
  · rintro ⟨rfl, a, first, second, rfl, hfirst, hsecond⟩
    exact ⟨a, second, (hx _ a _).mpr ⟨first, rfl, hfirst⟩, (hf a _ b []).mpr ⟨rfl, hsecond⟩⟩

theorem takesAll_ite {p : Prop} [Decidable p] {e : CodecError} (hx : TakesAll x F) :
    TakesAll (if p then throw e else x) fun a bytes => ¬ p ∧ F a bytes := by
  by_cases hp : p
  · rw [if_pos hp]
    intro input a rest
    constructor
    · intro h
      cases h
    · rintro ⟨-, hnot, -⟩
      exact absurd hp hnot
  · rw [if_neg hp]
    exact hx.congr fun a bytes => ⟨fun h => ⟨hp, h⟩, fun h => h.2⟩

/-- The end of the slice. -/
theorem takesAll_end (a : α) :
    TakesAll (do
        if (← get) ≠ [] then throw .malformed
        return a : RawReader α)
      fun a' bytes => a' = a ∧ bytes = [] := by
  intro input a' rest
  show (if input ≠ [] then throw .malformed else pure a : RawReader α).run input = _ ↔ _
  by_cases hnil : input = []
  · subst hnil
    rw [if_neg (not_not.mpr rfl)]
    constructor
    · intro h
      cases h
      exact ⟨rfl, rfl, rfl⟩
    · rintro ⟨rfl, rfl, -⟩
      rfl
  · rw [if_pos hnil]
    constructor
    · intro h
      cases h
    · rintro ⟨-, -, rfl⟩
      exact absurd rfl hnil

end TakesAll

/-! ## Fields -/

theorem takes_toUsize (length : Int) : Takes (toUsize length) fun n bytes =>
    length = n ∧ bytes = [] := by
  refine (takes_ite (takes_pure length.toNat)).congr fun n bytes => ?_
  constructor
  · rintro ⟨hneg, rfl, rfl⟩
    exact ⟨by omega, rfl⟩
  · rintro ⟨rfl, rfl⟩
    exact ⟨by omega, by simp, rfl⟩

/-- A length that is not negative. -/
theorem takes_length : Takes (do toUsize (← readVarI32)) fun n bytes =>
    SignedVarint 5 32 (n : Nat) bytes := by
  refine (takes_readVarI32.bind takes_toUsize).congr fun n bytes => ?_
  constructor
  · rintro ⟨length, first, second, rfl, hlength, rfl, rfl⟩
    rwa [List.append_nil]
  · intro h
    exact ⟨n, bytes, [], by simp, h, rfl, rfl⟩

theorem takes_length_bind {β : Type} {f : Nat → RawReader β} {G : Nat → β → Bytes → Prop}
    (hf : ∀ n, Takes (f n) (G n)) :
    Takes (readVarI32 >>= fun length => toUsize length >>= f) fun b bytes =>
      ∃ (n : Nat) (first second : Bytes), bytes = first ++ second ∧ SignedVarint 5 32 n first ∧
        G n b second := by
  rw [← bind_assoc]
  exact takes_length.bind hf

theorem takesAll_length_bind {β : Type} {f : Nat → RawReader β} {G : Nat → β → Bytes → Prop}
    (hf : ∀ n, TakesAll (f n) (G n)) :
    TakesAll (readVarI32 >>= fun length => toUsize length >>= f) fun b bytes =>
      ∃ (n : Nat) (first second : Bytes), bytes = first ++ second ∧ SignedVarint 5 32 n first ∧
        G n b second := by
  rw [← bind_assoc]
  exact takes_length.bindAll hf

theorem takes_nullableRaw : Takes takeNullableRaw fun _ => NullableBytes := by
  -- a length of -1 stands for null, and any other one for as many bytes
  let body (length : Int) (bytes : Bytes) : Prop :=
    (length = -1 ∧ bytes = []) ∨ length = bytes.length
  have hbody : ∀ length, Takes (do
      if length = -1 then return ()
      else if length ≥ 0 then
        let _ ← takeRaw length.toNat
        return ()
      else throw .malformed) fun (_ : Unit) => body length := by
    intro length
    by_cases hnull : length = -1
    -- null has no bytes
    · rw [if_pos hnull]
      refine (takes_pure ()).congr fun _ bytes => ?_
      constructor
      · rintro ⟨-, rfl⟩
        exact .inl ⟨hnull, rfl⟩
      · rintro (⟨-, rfl⟩ | hlength)
        · exact ⟨rfl, rfl⟩
        · omega
    · rw [if_neg hnull]
      by_cases hpos : length ≥ 0
      · rw [if_pos hpos]
        refine ((takes_takeRaw length.toNat).bind fun _ => takes_pure ()).congr fun _ bytes => ?_
        constructor
        · rintro ⟨_, first, second, rfl, ⟨-, hlength⟩, -, rfl⟩
          rw [List.append_nil]
          exact .inr (by omega)
        · rintro (⟨h, -⟩ | hlength)
          · exact absurd h hnull
          · exact ⟨bytes, bytes, [], by simp, ⟨rfl, by omega⟩, rfl, rfl⟩
      -- a negative length is refused
      · rw [if_neg hpos]
        refine (takes_throw _).congr fun _ bytes => ⟨False.elim, ?_⟩
        rintro (⟨h, -⟩ | hlength)
        · exact hnull h
        · omega
  -- the length comes first
  refine (takes_readVarI32.bind hbody).congr fun _ bytes => ?_
  constructor
  · rintro ⟨length, first, second, rfl, hlength, ⟨rfl, rfl⟩ | rfl⟩
    · exact ⟨first, [], rfl, .inr ⟨hlength, rfl⟩⟩
    · exact ⟨first, second, rfl, .inl hlength⟩
  · rintro ⟨head, tail, rfl, hlength | ⟨hnull, rfl⟩⟩
    · exact ⟨_, head, tail, rfl, hlength, .inr rfl⟩
    · exact ⟨_, head, [], rfl, hnull, .inl ⟨rfl, rfl⟩⟩

theorem takes_skipHeader : Takes skipHeader fun _ bytes => ∃ key value, bytes = key ++ value ∧
    NonNullBytes key ∧ NullableBytes value := by
  have htail : ∀ n, Takes (do
      let _ ← takeRaw n
      takeNullableRaw) fun (_ : Unit) bytes => ∃ body value, bytes = body ++ value ∧
        body.length = n ∧ NullableBytes value := by
    intro n
    refine ((takes_takeRaw n).bind fun _ => takes_nullableRaw).congr fun _ bytes => ?_
    constructor
    · rintro ⟨_, first, second, rfl, ⟨-, hlength⟩, hvalue⟩
      exact ⟨first, second, rfl, hlength, hvalue⟩
    · rintro ⟨body, value, rfl, hlength, hvalue⟩
      exact ⟨body, body, value, rfl, ⟨rfl, hlength⟩, hvalue⟩
  refine (takes_length_bind htail).congr fun _ bytes => ?_
  constructor
  · rintro ⟨_, head, tail, rfl, hhead, body, value, rfl, rfl, hvalue⟩
    exact ⟨head ++ body, value, by simp, ⟨head, body, rfl, hhead⟩, hvalue⟩
  · rintro ⟨_, value, rfl, ⟨head, body, rfl, hhead⟩, hvalue⟩
    exact ⟨body.length, head, body ++ value, by simp, hhead, body, value, rfl, rfl, hvalue⟩

theorem takes_skipHeaders (count : Nat) : Takes (skipHeaders count) fun _ => Headers count := by
  induction count with
  | zero =>
    refine (takes_pure ()).congr fun _ bytes => ?_
    simp [Headers]
  | succ count ih =>
    refine (takes_skipHeader.bind fun _ => ih).congr fun _ bytes => ?_
    constructor
    · rintro ⟨_, first, second, rfl, ⟨key, value, rfl, hkey, hvalue⟩, hrest⟩
      exact ⟨key, value, second, by simp, hkey, hvalue, hrest⟩
    · rintro ⟨key, value, rest, rfl, hkey, hvalue, hrest⟩
      exact ⟨(), key ++ value, rest, by simp, ⟨key, value, rfl, hkey, hvalue⟩, hrest⟩

theorem SignedVarint.pos {maximumBytes width : Nat} {value : Int} {bytes : Bytes}
    (h : SignedVarint maximumBytes width value bytes) : 0 < bytes.length := by
  obtain ⟨n, hgroups, -⟩ := h
  exact hgroups.pos

/-- A header has two lengths at least. -/
theorem Headers.length_ge {count : Nat} {bytes : Bytes} (h : Headers count bytes) :
    count * 2 ≤ bytes.length := by
  induction count generalizing bytes with
  | zero => simp
  | succ count ih =>
    obtain ⟨_, _, rest, rfl, ⟨head, body, rfl, hhead⟩, ⟨head', body', rfl, hvalue⟩, hrest⟩ := h
    have hkey := hhead.pos
    have hsize : 0 < head'.length := by
      rcases hvalue with hvalue | ⟨hvalue, -⟩
      · exact hvalue.pos
      · exact hvalue.pos
    have htail := ih hrest
    simp only [List.length_append]
    omega

/-! ## Records -/

section Records

variable {info : BatchDecodeInfo} {ordinal aggregateHeaders : Nat}

/-- The headers, after their count: what the check asks of the bytes that are left, the headers
themselves ask too. -/
theorem takesAll_headers (headerCount : Nat) : TakesAll (do
      let rest ← get
      if headerCount > maxHeadersPerRecord ∨
          aggregateHeaders + headerCount > maxHeadersPerRequest ∨
          headerCount * 2 > rest.length then
        throw .tooManyHeaders
      skipHeaders headerCount
      if (← get) ≠ [] then throw .malformed
      return headerCount) fun n bytes => n = headerCount ∧ headerCount ≤ maxHeadersPerRecord ∧
        aggregateHeaders + headerCount ≤ maxHeadersPerRequest ∧ Headers headerCount bytes := by
  -- the headers, which have to be the last bytes
  have hrest : TakesAll (do
      skipHeaders headerCount
      if (← get) ≠ [] then throw .malformed
      return headerCount) fun n bytes => n = headerCount ∧ Headers headerCount bytes := by
    refine ((takes_skipHeaders headerCount).bindAll fun _ => takesAll_end headerCount).congr
      fun n bytes => ?_
    constructor
    · rintro ⟨_, first, second, rfl, hheaders, rfl, rfl⟩
      rw [List.append_nil]
      exact ⟨rfl, hheaders⟩
    · rintro ⟨rfl, hheaders⟩
      exact ⟨(), bytes, [], by simp, hheaders, rfl, rfl⟩
  intro input n rest
  have hrun := takesAll_ite (e := .tooManyHeaders) (p := headerCount > maxHeadersPerRecord ∨
    aggregateHeaders + headerCount > maxHeadersPerRequest ∨ headerCount * 2 > input.length) hrest
  refine (hrun input n rest).trans ?_
  -- every header has two bytes at least, so that the last check never decides
  constructor
  · rintro ⟨rfl, hlimits, rfl, hheaders⟩
    simp only [gt_iff_lt, not_or, not_lt] at hlimits
    exact ⟨rfl, rfl, hlimits.1, hlimits.2.1, hheaders⟩
  · rintro ⟨rfl, rfl, hrecord, hrequest, hheaders⟩
    have hlength := hheaders.length_ge
    exact ⟨rfl, by omega, rfl, hheaders⟩

theorem checkedAddI64_isNone {a b : Int} : (checkedAddI64 a b).isNone = true ↔ ¬ FitsI64 (a + b) := by
  unfold checkedAddI64 FitsI64
  split
  · next h => simp [h]
  · next h => simp [h]

theorem takesAll_recordBody : TakesAll (validateRecordBody info ordinal aggregateHeaders)
    fun n bytes => RecordBody info ordinal n bytes ∧
      aggregateHeaders + n ≤ maxHeadersPerRequest := by
  -- the fields in their order, each with the check that follows it
  refine ((takes_takeRaw 1).bindAll fun attributes => takesAll_ite <|
    takes_readVarI64.bindAll fun timestampDelta => takesAll_ite <|
    takes_readVarI32.bindAll fun offsetDelta => takesAll_ite <| takesAll_ite <|
    takes_nullableRaw.bindAll fun _ => takes_nullableRaw.bindAll fun _ =>
    takesAll_length_bind fun n => takesAll_headers n).congr fun n bytes => ?_
  constructor
  -- every check passes in a record that is accepted
  · rintro ⟨_, attributes, _, rfl, ⟨rfl, -⟩, hattributes, timestampDelta, timestamp, _, rfl,
      htimestamp, hsum, offsetDelta, offset, _, rfl, hoffset, hbad, hsum', -, key, _, rfl, hkey, -,
      value, _, rfl, hvalue, n', count, headers, rfl, hcount, rfl, hrecord, hrequest, hheaders⟩
    rw [checkedAddI64_isNone, not_not] at hsum hsum'
    refine ⟨⟨⟨timestampDelta, offsetDelta, timestamp, offset, key, value, count, headers, ?_,
      htimestamp, hsum, hoffset, by omega, hsum', fun hproducer => ⟨by omega, by omega⟩, hkey,
      hvalue, hcount, hheaders⟩, hrecord⟩, hrequest⟩
    rw [not_not.mp hattributes]
  -- and every one of them in a record that is well formed
  · rintro ⟨⟨⟨timestampDelta, offsetDelta, timestamp, offset, key, value, count, headers, rfl,
      htimestamp, hsum, hoffset, hpos, hsum', hproducer, hkey, hvalue, hcount, hheaders⟩, hrecord⟩,
      hrequest⟩
    refine ⟨[0], [0], _, rfl, ⟨rfl, rfl⟩, not_not.mpr rfl, timestampDelta, timestamp, _, rfl,
      htimestamp, ?_, offsetDelta, offset, _, rfl, hoffset, ?_, ?_, (), key, _, rfl, hkey, (), value,
      _, rfl, hvalue, n, count, headers, rfl, hcount, rfl, hrecord, hrequest, hheaders⟩
    · rwa [checkedAddI64_isNone, not_not]
    · rintro (hneg | ⟨hidempotent, hbad⟩)
      · omega
      · have := hproducer hidempotent
        omega
    · rwa [checkedAddI64_isNone, not_not]

/-- A reader that goes on as another one says of a slice of its own. -/
theorem takes_within {α β : Type} {x : RawReader α} {F : α → Bytes → Prop} {f : α → RawReader β}
    {y : RawReader β} {G : α → β → Bytes → Prop} {slice : Bytes} (hx : TakesAll x F)
    (herror : ∀ e, x.run slice = .error e → y = throw e)
    (hok : ∀ a rest, x.run slice = .ok (a, rest) → y = f a)
    (hf : ∀ a, F a slice → Takes (f a) (G a)) :
    Takes y fun b bytes => ∃ a, F a slice ∧ G a b bytes := by
  cases hrun : x.run slice with
  | error e =>
    rw [herror e hrun]
    refine (takes_throw e).congr fun b bytes => ⟨False.elim, ?_⟩
    rintro ⟨a, ha, -⟩
    rw [(hx slice a []).mpr ⟨rfl, ha⟩] at hrun
    cases hrun
  | ok r =>
    obtain ⟨a, rest⟩ := r
    obtain ⟨rfl, ha⟩ := (hx slice a rest).mp hrun
    rw [hok a [] hrun]
    refine (hf a ha).congr fun b bytes => ⟨fun h => ⟨a, ha, h⟩, ?_⟩
    rintro ⟨a', ha', h⟩
    have hsame := (hx slice a' []).mpr ⟨rfl, ha'⟩
    rw [hrun] at hsame
    cases hsame
    exact h

/-- The records of a batch. -/
theorem takes_recordsFrom {remaining : Nat} (haggregate : aggregateHeaders ≤ maxHeadersPerRequest) :
    Takes (validateRecordsFrom info remaining ordinal aggregateHeaders) fun counts bytes =>
      counts.length = remaining ∧ aggregateHeaders + counts.sum ≤ maxHeadersPerRequest ∧
        Records info ordinal counts bytes := by
  induction remaining generalizing ordinal aggregateHeaders with
  | zero =>
    refine (takes_pure []).congr fun counts bytes => ?_
    constructor
    · rintro ⟨rfl, rfl⟩
      exact ⟨rfl, haggregate, rfl⟩
    · rintro ⟨hlength, -, hrecords⟩
      obtain rfl := List.length_eq_zero_iff.mp hlength
      exact ⟨rfl, hrecords⟩
  | succ remaining ih =>
    -- the records after one with `n` headers
    let after (n : Nat) (counts : List Nat) (bytes : Bytes) : Prop := ∃ rest, counts = n :: rest ∧
      rest.length = remaining ∧ aggregateHeaders + n + rest.sum ≤ maxHeadersPerRequest ∧
        Records info (ordinal + 1) rest bytes
    have hafter : ∀ n slice, RecordBody info ordinal n slice ∧
        aggregateHeaders + n ≤ maxHeadersPerRequest → Takes (do
          let counts ← validateRecordsFrom info remaining (ordinal + 1) (aggregateHeaders + n)
          return n :: counts) (after n) := by
      intro n slice hbody
      refine ((ih hbody.2).bind fun counts => takes_pure (n :: counts)).congr fun counts bytes => ?_
      constructor
      · rintro ⟨rest, first, second, rfl, ⟨hlength, hsum, hrecords⟩, rfl, rfl⟩
        rw [List.append_nil]
        exact ⟨rest, rfl, hlength, hsum, hrecords⟩
      · rintro ⟨rest, rfl, hlength, hsum, hrecords⟩
        exact ⟨rest, bytes, [], by simp, ⟨hlength, hsum, hrecords⟩, rfl, rfl⟩
    rw [validateRecordsFrom]
    refine Takes.congr (takes_length_bind fun recordLength => (takes_takeRaw recordLength).bind
      fun record => takes_within takesAll_recordBody (fun e h => by rw [h])
        (fun n rest h => by rw [h]) fun n hbody => hafter n record hbody) fun counts bytes => ?_
    constructor
    · rintro ⟨_, head, _, rfl, hhead, body, _, rest, rfl, ⟨rfl, rfl⟩, n, ⟨hbody, hsum⟩, counts, rfl,
        hlength, hsum', hrecords⟩
      refine ⟨by simp [hlength], ?_, head, body, rest, rfl, hhead, hbody, hrecords⟩
      rw [List.sum_cons]
      omega
    · rintro ⟨hlength, hsum, hrecords⟩
      cases counts with
      | nil => cases hlength
      | cons n counts =>
        obtain ⟨head, body, rest, rfl, hhead, hbody, hrecords⟩ := hrecords
        rw [List.sum_cons] at hsum
        exact ⟨body.length, head, _, rfl, hhead, body, body, rest, rfl, ⟨rfl, rfl⟩, n,
          ⟨hbody, by omega⟩, counts, rfl, by simpa using hlength, by omega, hrecords⟩

end Records

/-! ## Batches -/

section Batches

variable {info : BatchDecodeInfo} {infos : List BatchDecodeInfo} {aggregateHeaders : Nat}

theorem i32FromBeBytes_eq {bytes : Bytes} (h : bytes.length = 4) :
    i32FromBeBytes bytes = signed bytes := by
  unfold i32FromBeBytes signed bigEndian
  rw [h]

/-- A reader that returns what another one says of the whole of a slice. -/
theorem takes_exactly {α : Type} {x y : RawReader α} {F : α → Bytes → Prop} {slice : Bytes}
    (hx : Takes x F) (herror : ∀ e, x.run slice = .error e → y = throw e)
    (hok : ∀ a rest, x.run slice = .ok (a, rest) →
      y = if rest ≠ [] then throw .malformed else pure a) :
    Takes y fun a bytes => F a slice ∧ bytes = [] := by
  -- the reader and what it says of the slice
  have hfacts : ∀ a rest, x.run slice = .ok (a, rest) ↔ ∃ bytes, slice = bytes ++ rest ∧ F a bytes :=
    fun a rest => hx slice a rest
  cases hrun : x.run slice with
  -- the slice is refused
  | error e =>
    rw [herror e hrun]
    refine (takes_throw e).congr fun a bytes => ⟨False.elim, ?_⟩
    rintro ⟨ha, -⟩
    rw [(hfacts a []).mpr ⟨slice, by simp, ha⟩] at hrun
    cases hrun
  -- the slice is read, with nothing behind it
  | ok r =>
    obtain ⟨a, rest⟩ := r
    rw [hok a rest hrun]
    refine (takes_ite (takes_pure a)).congr fun a' bytes => ?_
    rw [not_not]
    constructor
    · rintro ⟨rfl, rfl, rfl⟩
      obtain ⟨bytes, hslice, ha⟩ := (hfacts a' []).mp hrun
      rw [List.append_nil] at hslice
      exact ⟨hslice ▸ ha, rfl⟩
    · rintro ⟨ha', rfl⟩
      have hsame := (hfacts a' []).mpr ⟨slice, by simp, ha'⟩
      rw [hrun] at hsame
      cases hsame
      exact ⟨rfl, rfl, rfl⟩

theorem takes_rawBatch (hcount : 0 ≤ info.recordCount)
    (haggregate : aggregateHeaders ≤ maxHeadersPerRequest) :
    Takes (validateRawBatch info aggregateHeaders) fun counts bytes =>
      RecordBatch info counts bytes ∧ aggregateHeaders + counts.sum ≤ maxHeadersPerRequest := by
  unfold validateRawBatch
  -- the head, the length, and the records in as many bytes
  refine Takes.congr ((takes_takeRaw 12).bind fun head => (takes_toUsize _).bind fun batchLength =>
    (takes_takeRaw batchLength).bind fun batch => takes_ite <| takes_ite <|
    takes_exactly (takes_recordsFrom haggregate) (fun e h => by rw [h]) fun counts rest h => ?_)
    fun counts bytes => ?_
  · dsimp only
    rw [h]
    rfl
  constructor
  -- an accepted batch has the frame, and records that fill it
  · rintro ⟨head, _, _, rfl, ⟨rfl, hhead⟩, _, _, _, rfl, ⟨hlength, rfl⟩, _, body, _, rfl,
      ⟨rfl, rfl⟩, hlong, hlast, ⟨hcounts, hsum, hrecords⟩, rfl⟩
    rw [i32FromBeBytes_eq (by simp [hhead])] at hlength
    rw [i32FromBeBytes_eq (by simp; omega)] at hlast
    refine ⟨⟨⟨head, _, by simp, hhead, hlength, by omega, fun hproducer => ?_, hrecords⟩,
      by omega⟩, hsum⟩
    by_contra hne
    exact hlast ⟨hproducer, hne⟩
  -- a batch of this form passes every check
  · rintro ⟨⟨⟨head, body, rfl, hhead, hlength, hlong, hlast, hrecords⟩, hcounts⟩, hsum⟩
    refine ⟨head, head, body, rfl, ⟨rfl, hhead⟩, body.length, [], body, rfl, ⟨?_, rfl⟩, body, body,
      [], by simp, ⟨rfl, rfl⟩, by omega, ?_, ⟨by omega, hsum, hrecords⟩, rfl⟩
    · rw [i32FromBeBytes_eq (by simp [hhead]), hlength]
    · rw [i32FromBeBytes_eq (by simp; omega)]
      rintro ⟨hproducer, hne⟩
      exact hne (hlast hproducer)

theorem takesAll_rawBatches (hcounts : ∀ info ∈ infos, 0 ≤ info.recordCount)
    (haggregate : aggregateHeaders ≤ maxHeadersPerRequest) :
    TakesAll (validateRawBatches infos aggregateHeaders) fun counts bytes =>
      Batches infos counts bytes ∧ aggregateHeaders + counts.sum ≤ maxHeadersPerRequest := by
  -- over the descriptions of the batches, with the headers counted so far
  induction infos generalizing aggregateHeaders with
  | nil =>
    refine (takesAll_end []).congr fun counts bytes => ?_
    constructor
    · rintro ⟨rfl, rfl⟩
      exact ⟨⟨rfl, rfl⟩, haggregate⟩
    · rintro ⟨⟨rfl, rfl⟩, -⟩
      exact ⟨rfl, rfl⟩
  | cons info infos ih =>
    obtain ⟨hcount, hcounts⟩ := List.forall_mem_cons.mp hcounts
    rw [validateRawBatches]
    intro input counts rest
    rw [run_bind_eq_ok]
    constructor
    -- the first batch is read, and the others are read behind it
    · rintro ⟨first, mid, hrun, hrest⟩
      obtain ⟨batch, rfl, hbatch, hsum⟩ := (takes_rawBatch hcount haggregate input first mid).mp hrun
      obtain ⟨others, rest', hrun', hpure⟩ := run_bind_eq_ok.mp hrest
      cases hpure
      obtain ⟨rfl, hbatches, hsum'⟩ := (ih hcounts hsum mid others rest).mp hrun'
      refine ⟨rfl, ⟨first, others, batch, mid, rfl, rfl, hbatch, hbatches⟩, ?_⟩
      rw [List.sum_append]
      omega
    -- the first batch leaves the headers of the others
    · rintro ⟨rfl, ⟨first, others, batch, batches, rfl, rfl, hbatch, hbatches⟩, hsum⟩
      rw [List.sum_append] at hsum
      have hfirst := (takes_rawBatch hcount haggregate (batch ++ batches) first batches).mpr
        ⟨batch, rfl, hbatch, by omega⟩
      have hothers : (validateRawBatches infos (aggregateHeaders + first.sum)).run batches =
          .ok (others, []) :=
        (ih hcounts (by omega) batches others []).mpr ⟨rfl, hbatches, by omega⟩
      exact ⟨first, batches, hfirst, run_bind_eq_ok.mpr ⟨others, [], hothers, rfl⟩⟩

/-- **The raw record validator accepts exactly the grammar**: it succeeds on the record batches
of the grammar and on nothing else, and returns the header count of every record. -/
theorem raw_validator_accepts_grammar {encoded : Bytes} {counts : List Nat}
    (hcounts : ∀ info ∈ infos, 0 ≤ info.recordCount) :
    validateRawRecords encoded infos = .ok counts ↔ RecordBatches infos counts encoded := by
  have hall := takesAll_rawBatches hcounts (Nat.zero_le maxHeadersPerRequest) encoded counts
  simp only [Nat.zero_add] at hall
  unfold validateRawRecords
  constructor
  · intro h
    cases hrun : (validateRawBatches infos 0).run encoded with
    | error e =>
      rw [hrun] at h
      cases h
    | ok r =>
      rw [hrun] at h
      cases h
      obtain ⟨-, hbatches, hsum⟩ := (hall r.2).mp hrun
      exact ⟨hbatches, hsum⟩
  · rintro ⟨hbatches, hsum⟩
    rw [(hall []).mpr ⟨rfl, hbatches, hsum⟩]

end Batches

/-! ## One batch -/

/-- One record with a null key, the value `v` and one header. -/
def oneRecord : Bytes := [20, 0, 0, 0, 1, 2, 118, 2, 2, 107, 1]

/-- Its batch, of producer 7 and with base sequence 5. -/
def oneBatch : Bytes :=
  [0, 0, 0, 0, 0, 0, 0, 0, 0, 0, 0, 60] ++
  [0, 0, 0, 0, 2, 0, 0, 0, 0, 0, 0, 0, 0, 0, 0] ++
  [0, 0, 0, 0, 0, 0, 0, 0, 0, 0, 0, 0, 0, 0, 0, 0] ++
  [0, 0, 0, 0, 0, 0, 0, 7, 0, 0, 0, 0, 0, 5, 0, 0, 0, 1] ++ oneRecord

/-- The batch is in the grammar. -/
theorem raw_validator_accepts_grammar_batch :
    validateRawRecords oneBatch [⟨1, false, 0, 0, 5, 7⟩] = .ok [1] ∧
    RecordBatches [⟨1, false, 0, 0, 5, 7⟩] [1] oneBatch := by
  have haccepts : validateRawRecords oneBatch [⟨1, false, 0, 0, 5, 7⟩] = .ok [1] := by
    decide +kernel
  exact ⟨haccepts, (raw_validator_accepts_grammar (by decide)).mp haccepts⟩

end Walstream.Wire

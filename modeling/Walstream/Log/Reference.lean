import Walstream.Framing.Sha256
import Walstream.Log.Documents
import Walstream.Log.Drafting

/-!
# Crates that keep their promises

What the log assumes of other crates can be met: here are crates that do, for two records.
UUIDs have their usual notation, and the two record batches are the bytes that Kafka gives
them, with the batch's base offset as the only part that varies. Documents are as long as
their texts, and digests are those of SHA-256.
-/

namespace Walstream.Log.Reference

open Interaction

/-! ## Positional notation -/

/-- The last `k` digits of `n`. -/
def digits (base : Nat) : Nat → Nat → List Nat
  | 0, _ => []
  | k + 1, n => digits base k (n / base) ++ [n % base]

/-- The number with these digits. -/
def ofDigits (base : Nat) (ds : List Nat) : Nat := ds.foldl (fun n d => base * n + d) 0

theorem ofDigits_digits (base k n : Nat) : ofDigits base (digits base k n) = n % base ^ k := by
  induction k generalizing n with
  | zero => simp [digits, ofDigits, Nat.mod_one]
  | succ k ih =>
    have hfold : ofDigits base (digits base k (n / base) ++ [n % base]) =
        base * ofDigits base (digits base k (n / base)) + n % base := by
      simp [ofDigits]
    rw [digits, hfold, ih, pow_succ', Nat.mod_mul]
    omega

@[simp] theorem length_digits (base k n : Nat) : (digits base k n).length = k := by
  induction k generalizing n with
  | zero => rfl
  | succ k ih => simp [digits, ih]

theorem digits_lt {base : Nat} (hbase : 0 < base) {k n d : Nat} (hd : d ∈ digits base k n) :
    d < base := by
  induction k generalizing n with
  | zero => simp [digits] at hd
  | succ k ih =>
    rcases List.mem_append.mp hd with hd | hd
    · exact ih hd
    · rw [List.mem_singleton.mp hd]
      exact Nat.mod_lt _ hbase

/-! ## UUIDs -/

def hexChars : List Char :=
  ['0', '1', '2', '3', '4', '5', '6', '7', '8', '9', 'a', 'b', 'c', 'd', 'e', 'f']

private theorem idxOf_hexChars : ∀ d < 16, hexChars.idxOf (hexChars.getD d '0') = d := by decide

private theorem hyphen_ne_hexChars : ∀ d < 16, hexChars.getD d '0' ≠ '-' := by decide

private theorem contains_hexChars : ∀ d < 16, hexChars.contains (hexChars.getD d '0') = true := by
  decide

/-- The last `k` hexadecimal digits. -/
def hexDigits (k n : Nat) : List Char := (digits 16 k n).map fun d => hexChars.getD d '0'

theorem hexDigits_all {p : Char → Prop} (h : ∀ d < 16, p (hexChars.getD d '0')) {k n : Nat} :
    ∀ c ∈ hexDigits k n, p c := by
  intro c hc
  obtain ⟨d, hd, rfl⟩ := List.mem_map.mp hc
  exact h d (digits_lt (by decide) hd)

@[simp] theorem length_hexDigits (k n : Nat) : (hexDigits k n).length = k := by simp [hexDigits]

/-- Digits in groups of 8, 4, 4, 4 and 12. -/
def hyphenate (ds : List Char) : List Char :=
  ds.take 8 ++ '-' :: (ds.drop 8).take 4 ++ '-' :: (ds.drop 12).take 4 ++
    '-' :: (ds.drop 16).take 4 ++ '-' :: ds.drop 20

def uuidDigits (id : Uuid) : List Char := hexDigits 32 id.toNat

def uuidToString (id : Uuid) : String := String.ofList (hyphenate (uuidDigits id))

/-- A UUID in groups of lower case. -/
def uuidParseStr (s : String) : Option Uuid :=
  let ds := s.toList.filter (· ≠ '-')
  if s.toList = hyphenate ds ∧ ds.length = 32 ∧ ds.all (hexChars.contains ·) then
    some (BitVec.ofNat 128 (ofDigits 16 (ds.map hexChars.idxOf)))
  else none

private theorem filter_hyphenate (ds : List Char) (h : ∀ d ∈ ds, d ≠ '-') :
    (hyphenate ds).filter (· ≠ '-') = ds := by
  have hself : ∀ {xs : List Char}, xs.Sublist ds → xs.filter (· ≠ '-') = xs := fun hsub =>
    List.filter_eq_self.mpr fun d hd => by simpa using h d (hsub.subset hd)
  have hpart : ∀ k, ((ds.drop k).take 4).Sublist ds := fun k =>
    (List.take_sublist _ _).trans (List.drop_sublist _ _)
  simp only [hyphenate, List.filter_append, List.filter_cons, hself (List.take_sublist _ _),
    hself (hpart _), hself (List.drop_sublist _ _)]
  simp only [ne_eq, not_true_eq_false, decide_false, Bool.false_eq_true, if_false]
  have hjoin : ∀ k, (ds.drop k).take 4 ++ ds.drop (k + 4) = ds.drop k := fun k => by
    rw [← List.drop_drop, List.take_append_drop]
  rw [List.append_assoc, List.append_assoc, List.append_assoc, hjoin 16, hjoin 12, hjoin 8,
    List.take_append_drop]

theorem length_uuid {s : String} (h : (uuidParseStr s).isSome) : s.toList.length = 36 := by
  unfold uuidParseStr at h
  dsimp only at h
  split at h
  · rename_i hs
    have hlength := congrArg List.length hs.1
    simp only [hyphenate, List.length_append, List.length_cons, List.length_take,
      List.length_drop, hs.2.1] at hlength
    exact hlength
  · cases h

theorem uuidParseStr_uuidToString (id : Uuid) : uuidParseStr (uuidToString id) = some id := by
  have hfilter := filter_hyphenate (uuidDigits id) (hexDigits_all hyphen_ne_hexChars)
  have hlength : (uuidDigits id).length = 32 := length_hexDigits 32 _
  have hhex : (uuidDigits id).all (hexChars.contains ·) = true :=
    List.all_eq_true.mpr (hexDigits_all contains_hexChars)
  have hvalues : (uuidDigits id).map hexChars.idxOf = digits 16 32 id.toNat := by
    rw [uuidDigits, hexDigits, List.map_map]
    refine (List.map_congr_left fun d hd => ?_).trans (List.map_id _)
    exact idxOf_hexChars d (digits_lt (by decide) hd)
  simp only [uuidParseStr, uuidToString, String.toList_ofList, hfilter, hlength, hhex, and_self,
    if_true, hvalues, ofDigits_digits]
  have hmod : id.toNat % 16 ^ 32 = id.toNat := Nat.mod_eq_of_lt (by simpa using id.isLt)
  rw [hmod, BitVec.ofNat_toNat, BitVec.setWidth_eq]

/-! ## Two records -/

/-- A record without a producer identity. -/
def plainRecord : Record where
  transactional := false
  control := false
  deleteHorizon := false
  partitionLeaderEpoch := -1
  producerId := -1
  producerEpoch := -1
  logAppendTime := false
  offset := 0
  sequence := -1
  timestamp := 1
  key := none
  value := some [97]
  headers := []
  producerId_i64 := by decide

/-- The first record of producer 0. -/
def numberedRecord : Record where
  transactional := false
  control := false
  deleteHorizon := false
  partitionLeaderEpoch := -1
  producerId := 0
  producerEpoch := 0
  logAppendTime := false
  offset := 0
  sequence := 0
  timestamp := 1
  key := none
  value := some [97]
  headers := []
  producerId_i64 := by decide

/-- Everything after the base offset in the batch of `plainRecord`. -/
def plainTail : List UInt8 :=
  [0, 0, 0, 57, 255, 255, 255, 255, 2, 164, 17, 204, 245, 0, 0, 0, 0, 0, 0, 0, 0, 0, 0, 0, 0,
    0, 1, 0, 0, 0, 0, 0, 0, 0, 1, 255, 255, 255, 255, 255, 255, 255, 255, 255, 255, 255, 255,
    255, 255, 0, 0, 0, 1, 14, 0, 0, 0, 1, 2, 97, 0]

/-- Everything after the base offset in the batch of `numberedRecord`. -/
def numberedTail : List UInt8 :=
  [0, 0, 0, 57, 255, 255, 255, 255, 2, 83, 0, 209, 79, 0, 0, 0, 0, 0, 0, 0, 0, 0, 0, 0, 0, 0,
    1, 0, 0, 0, 0, 0, 0, 0, 1, 0, 0, 0, 0, 0, 0, 0, 0, 0, 0, 0, 0, 0, 0, 0, 0, 0, 1, 14, 0, 0,
    0, 1, 2, 97, 0]

/-- `i64::to_be_bytes`. -/
def toBeBytes (n : Int) : List UInt8 := (digits 256 8 (BitVec.ofInt 64 n).toNat).map UInt8.ofNat

/-- `i64::from_be_bytes`. -/
def fromBeBytes (bytes : List UInt8) : Int :=
  (BitVec.ofNat 64 (ofDigits 256 (bytes.map UInt8.toNat))).toInt

theorem fromBeBytes_toBeBytes {n : Int} (h : i64Min ≤ n ∧ n ≤ i64Max) :
    fromBeBytes (toBeBytes n) = n := by
  have hvalues : (toBeBytes n).map UInt8.toNat = digits 256 8 (BitVec.ofInt 64 n).toNat := by
    rw [toBeBytes, List.map_map]
    refine (List.map_congr_left fun d hd => ?_).trans (List.map_id _)
    exact UInt8.toNat_ofNat_of_lt' (digits_lt (by decide) hd)
  have hmod : (BitVec.ofInt 64 n).toNat % 256 ^ 8 = (BitVec.ofInt 64 n).toNat :=
    Nat.mod_eq_of_lt (by simpa using (BitVec.ofInt 64 n).isLt)
  rw [fromBeBytes, hvalues, ofDigits_digits, hmod, BitVec.ofNat_toNat, BitVec.setWidth_eq,
    BitVec.toInt_ofInt]
  obtain ⟨hmin, hmax⟩ := h
  unfold i64Min at hmin
  unfold i64Max at hmax
  exact Int.bmod_eq_of_le (by omega) (by omega)

/-- The record at this offset. -/
def place (r : Record) (offset : Int) : Record := { r with offset := offset }

/-- The batch of one of the two records. -/
def encodeRecord (r : Record) : Except String (List UInt8) :=
  if place r 0 = plainRecord then .ok (toBeBytes r.offset ++ plainTail)
  else if place r 0 = numberedRecord then .ok (toBeBytes r.offset ++ numberedTail)
  else .error "unsupported record"

def encode : List Record → Except String (List UInt8)
  | [r] => encodeRecord r
  | _ => .error "unsupported records"

/-- The record of a batch. -/
def decodeRecord (bytes : List UInt8) : Option Record :=
  if bytes.drop 8 = plainTail then some (place plainRecord (fromBeBytes (bytes.take 8)))
  else if bytes.drop 8 = numberedTail then
    some (place numberedRecord (fromBeBytes (bytes.take 8)))
  else none

def decodeBatchInfo (bytes : List UInt8) : Option (List BatchDecodeInfo × List UInt8) :=
  (decodeRecord bytes).map fun r =>
    ([⟨1, false, r.offset, r.timestamp, r.sequence, r.producerId⟩], [])

def decodeAll (bytes : List UInt8) : Option (List (List Record) × List UInt8) :=
  (decodeRecord bytes).map fun r => ([[r]], [])

theorem encodeRecord_plain (n : Int) :
    encodeRecord (place plainRecord n) = .ok (toBeBytes n ++ plainTail) := by
  have heq : place (place plainRecord n) 0 = plainRecord := rfl
  unfold encodeRecord
  rw [if_pos heq]
  rfl

theorem encodeRecord_numbered (n : Int) :
    encodeRecord (place numberedRecord n) = .ok (toBeBytes n ++ numberedTail) := by
  have heq : place (place numberedRecord n) 0 = numberedRecord := rfl
  have hne : ¬ numberedRecord = plainRecord := by decide
  unfold encodeRecord
  rw [heq, if_neg hne, if_pos rfl]
  rfl

theorem encodeRecord_eq_ok {r : Record} {bytes : List UInt8} (h : encodeRecord r = .ok bytes) :
    ∃ n, bytes = toBeBytes n ++ plainTail ∧ r = place plainRecord n ∨
      bytes = toBeBytes n ++ numberedTail ∧ r = place numberedRecord n := by
  have hback : ∀ {t : Record}, place r 0 = t → r = place t r.offset := by
    rintro _ rfl
    rfl
  unfold encodeRecord at h
  split at h
  · rename_i heq
    exact ⟨r.offset, .inl ⟨(Except.ok.inj h).symm, hback heq⟩⟩
  · split at h
    · rename_i heq
      exact ⟨r.offset, .inr ⟨(Except.ok.inj h).symm, hback heq⟩⟩
    · cases h

theorem encode_eq_ok {records : List Record} {bytes : List UInt8} (h : encode records = .ok bytes) :
    ∃ r, records = [r] ∧ encodeRecord r = .ok bytes := by
  unfold encode at h
  split at h
  · exact ⟨_, rfl, h⟩
  · cases h

@[simp] theorem length_toBeBytes (n : Int) : (toBeBytes n).length = 8 := by simp [toBeBytes]

theorem decodeRecord_plain (n : Int) : decodeRecord (toBeBytes n ++ plainTail) =
    some (place plainRecord (fromBeBytes (toBeBytes n))) := by
  have hlength := length_toBeBytes n
  simp [decodeRecord, hlength]

theorem decodeRecord_numbered (n : Int) : decodeRecord (toBeBytes n ++ numberedTail) =
    some (place numberedRecord (fromBeBytes (toBeBytes n))) := by
  have hlength := length_toBeBytes n
  have hne : numberedTail ≠ plainTail := by decide
  simp [decodeRecord, hlength, hne]

theorem encodeRecord_shift {r : Record} {bytes : List UInt8} (delta : Int)
    (h : encodeRecord r = .ok bytes) :
    ∃ bytes', encodeRecord (r.shift delta) = .ok bytes' ∧ bytes'.length = bytes.length := by
  obtain ⟨n, ⟨rfl, rfl⟩ | ⟨rfl, rfl⟩⟩ := encodeRecord_eq_ok h
  · exact ⟨_, encodeRecord_plain (n + delta), by simp⟩
  · exact ⟨_, encodeRecord_numbered (n + delta), by simp⟩

/-! ## The crates -/

/-- SHA-256 in lower-case hexadecimal. -/
def sha256Hex (body : Body) : String :=
  String.ofList ((Framing.sha256 (contents body)).flatMap (hexDigits 8))

theorem sha256Hex_valid (body : Body) : validChecksum (sha256Hex body) = true := by
  have hlength : ((Framing.sha256 (contents body)).flatMap (hexDigits 8)).length = 64 := by
    simp [List.length_flatMap]
  rw [validChecksum, sha256Hex, String.toList_ofList, hlength, Bool.and_eq_true]
  refine ⟨rfl, List.all_eq_true.mpr fun c hc => ?_⟩
  obtain ⟨w, -, hc⟩ := List.mem_flatMap.mp hc
  exact hexDigits_all (p := fun c => (c.isDigit || (97 ≤ c.val && c.val ≤ 102) ||
    (65 ≤ c.val && c.val ≤ 70)) = true) (by decide) c hc

def crates : Crates where
  uuidToString := uuidToString
  uuidParseStr := uuidParseStr
  uuid_parse_toString := uuidParseStr_uuidToString
  jsonLength := fun body => (toVec body).length
  jsonLength_pos := fun body => List.length_pos_iff.mpr (toVec_ne_nil body)
  jsonError := fun _ => "invalid type"
  sha256Hex := sha256Hex
  sha256Hex_valid := sha256Hex_valid
  pathParse := .ok
  pathParse_segment := fun _ _ _ _ _ _ => rfl
  pathFrom := id
  pathFrom_segment := fun _ _ _ _ _ _ => rfl
  pathFrom_index := fun _ _ _ _ _ _ => rfl
  pathFrom_producer := fun _ _ _ _ _ _ => rfl
  encode := encode
  encode_shift := fun records delta bytes h _ => by
    obtain ⟨r, rfl, hr⟩ := encode_eq_ok h
    exact encodeRecord_shift delta hr
  decodeBatchInfo := decodeBatchInfo
  decodeAll := decodeAll

theorem fromBeBytes_range (bytes : List UInt8) :
    i64Min ≤ fromBeBytes bytes ∧ fromBeBytes bytes ≤ i64Max := by
  have hle := BitVec.le_toInt (BitVec.ofNat 64 (ofDigits 256 (bytes.map UInt8.toNat)))
  have hlt := BitVec.toInt_lt (x := BitVec.ofNat 64 (ofDigits 256 (bytes.map UInt8.toNat)))
  unfold i64Min i64Max fromBeBytes
  omega

/-! ## Their inspection -/

private theorem run_bind_ok {α β : Type} {x : RawReader α} {f : α → RawReader β}
    {s t : List UInt8} {a : α} (h : x.run s = .ok (a, t)) : (x >>= f).run s = (f a).run t := by
  rw [StateT.run_bind, h]
  rfl

section Inspection

variable {m p s : Int} (hm : checkedAddI64 m 0 = some m) (hp : p < 0 ∨ 0 ≤ s)

include hm hp

private theorem validateRecordBody_run :
    (validateRecordBody ⟨1, false, m, 1, s, p⟩ 0 0).run [0, 0, 0, 1, 2, 97, 0] = .ok (0, []) := by
  have htimestamp : checkedAddI64 1 0 = some 1 := by decide
  have hsequence : ¬ ((0 : Int) < 0 ∨ p ≥ 0 ∧ (s < 0 ∨ (0 : Int) ≠ (0 : Nat))) := by
    simp only [Nat.cast_zero, ne_eq, not_true_eq_false, or_false, lt_irrefl, false_or]
    omega
  unfold validateRecordBody
  rw [run_bind_ok (a := [0]) (t := [0, 0, 1, 2, 97, 0]) rfl]
  simp only [ne_eq, not_true_eq_false, if_false]
  rw [run_bind_ok (a := 0) (t := [0, 1, 2, 97, 0]) rfl]
  simp only [htimestamp, Option.isNone_some, Bool.false_eq_true, if_false]
  rw [run_bind_ok (a := 0) (t := [1, 2, 97, 0]) rfl, if_neg hsequence]
  simp only [hm, Option.isNone_some, Bool.false_eq_true, if_false]
  rw [run_bind_ok (a := ()) (t := [2, 97, 0]) rfl, run_bind_ok (a := ()) (t := [0]) rfl]
  rfl

private theorem validateRecordsFrom_run :
    (validateRecordsFrom ⟨1, false, m, 1, s, p⟩ 1 0 0).run [14, 0, 0, 0, 1, 2, 97, 0] =
      .ok ([0], []) := by
  unfold validateRecordsFrom
  rw [run_bind_ok (a := 7) (t := [0, 0, 0, 1, 2, 97, 0]) rfl,
    run_bind_ok (a := 7) (t := [0, 0, 0, 1, 2, 97, 0]) rfl,
    run_bind_ok (a := [0, 0, 0, 1, 2, 97, 0]) (t := []) rfl, validateRecordBody_run hm hp]
  rfl

/-- The frame of a batch with one of the two tails. -/
private theorem validateRawRecords_run {bytes tail : List UInt8} (hbytes : bytes.length = 8)
    (htail : tail = plainTail ∨ tail = numberedTail) :
    validateRawRecords (bytes ++ tail) [⟨1, false, m, 1, s, p⟩] = .ok [0] := by
  -- both tails have the same frame: a length, and one record of seven bytes
  have hframe : ∃ body, tail = [0, 0, 0, 57] ++ body ∧ body.length = 57 ∧
      body.drop 49 = [14, 0, 0, 0, 1, 2, 97, 0] ∧ i32FromBeBytes ((body.drop 11).take 4) = 0 := by
    rcases htail with rfl | rfl
    · exact ⟨plainTail.drop 4, by decide, by decide, by decide, by decide⟩
    · exact ⟨numberedTail.drop 4, by decide, by decide, by decide, by decide⟩
  obtain ⟨body, rfl, hlength, hdrop, hlast⟩ := hframe
  -- the length is read after the eight bytes of the offset
  have hhead : (takeRaw 12).run (bytes ++ ([0, 0, 0, 57] ++ body)) =
      .ok (bytes ++ [0, 0, 0, 57], body) := by
    have hsplit : (bytes ++ [0, 0, 0, 57]).length = 12 := by simp [hbytes]
    have heq : bytes ++ ([0, 0, 0, 57] ++ body) = (bytes ++ [0, 0, 0, 57]) ++ body := by simp
    rw [heq]
    simp only [takeRaw, StateT.run, List.take_left' hsplit, List.drop_left' hsplit]
    rw [if_neg (by simp [hbytes]; omega)]
  have hlen : (toUsize (i32FromBeBytes ((bytes ++ [0, 0, 0, 57]).drop 8))).run body =
      .ok (57, body) := by
    rw [List.drop_left' hbytes]
    rfl
  have hbatch : (takeRaw 57).run body = .ok (body, []) := by
    simp [takeRaw, StateT.run, hlength]
  -- the batch has one record with its first offset
  have hrun : (validateRawBatch ⟨1, false, m, 1, s, p⟩ 0).run
      (bytes ++ ([0, 0, 0, 57] ++ body)) = .ok ([0], []) := by
    unfold validateRawBatch
    rw [run_bind_ok hhead, run_bind_ok hlen, run_bind_ok hbatch, if_neg (by omega)]
    simp only [hlast, hdrop]
    rw [if_neg (by simp)]
    simp only [Int.toNat_one, validateRecordsFrom_run hm hp]
    rfl
  unfold validateRawRecords validateRawBatches
  rw [run_bind_ok hrun]
  rfl

end Inspection

/-- The inspection of either batch: one record without headers. -/
theorem inspect_encoded {r : Record} {bytes : List UInt8} (h : encodeRecord r = .ok bytes) :
    crates.inspectRecordBatches bytes = .ok ⟨1, 1, [1], [0]⟩ := by
  have hzero : ∀ n, checkedAddI64 (fromBeBytes n) 0 = some (fromBeBytes n) := fun n => by
    simp [checkedAddI64, fromBeBytes_range n]
  obtain ⟨n, ⟨rfl, rfl⟩ | ⟨rfl, rfl⟩⟩ := encodeRecord_eq_ok h
  · have hinfo : crates.decodeBatchInfo (toBeBytes n ++ plainTail) =
        some ([⟨1, false, fromBeBytes (toBeBytes n), 1, -1, -1⟩], []) := by
      simp [crates, decodeBatchInfo, decodeRecord_plain, plainRecord, place]
    have hraw := validateRawRecords_run (hzero (toBeBytes n)) (p := -1) (s := -1) (.inl (by decide))
      (length_toBeBytes n) (.inl rfl)
    have hne : toBeBytes n ++ plainTail ≠ [] := by simp [plainTail]
    simp [Crates.inspectRecordBatches, hinfo, hraw, hne, rejectIf, okOr, totalRecordCount,
      checkedAddU64, u64Max, maxBatchRecords, bind, Except.bind, pure, Except.pure]
  · have hinfo : crates.decodeBatchInfo (toBeBytes n ++ numberedTail) =
        some ([⟨1, false, fromBeBytes (toBeBytes n), 1, 0, 0⟩], []) := by
      simp [crates, decodeBatchInfo, decodeRecord_numbered, numberedRecord, place]
    have hraw := validateRawRecords_run (hzero (toBeBytes n)) (p := 0) (s := 0) (.inr (by decide))
      (length_toBeBytes n) (.inr rfl)
    have hne : toBeBytes n ++ numberedTail ≠ [] := by simp [numberedTail]
    simp [Crates.inspectRecordBatches, hinfo, hraw, hne, rejectIf, okOr, totalRecordCount,
      checkedAddU64, u64Max, maxBatchRecords, bind, Except.bind, pure, Except.pure]

theorem decodeAll_encoded {r : Record} {bytes : List UInt8} (h : encodeRecord r = .ok bytes)
    (hoffset : i64Min ≤ r.offset ∧ r.offset ≤ i64Max) : decodeAll bytes = some ([[r]], []) := by
  obtain ⟨n, ⟨rfl, rfl⟩ | ⟨rfl, rfl⟩⟩ := encodeRecord_eq_ok h
  · have hn : i64Min ≤ n ∧ n ≤ i64Max := hoffset
    simp [decodeAll, decodeRecord_plain, fromBeBytes_toBeBytes hn]
  · have hn : i64Min ≤ n ∧ n ≤ i64Max := hoffset
    simp [decodeAll, decodeRecord_numbered, fromBeBytes_toBeBytes hn]

theorem headers_encoded {r : Record} {bytes : List UInt8} (h : encodeRecord r = .ok bytes) :
    r.headers.length = 0 := by
  obtain ⟨n, ⟨-, rfl⟩ | ⟨-, rfl⟩⟩ := encodeRecord_eq_ok h <;> rfl

/-! ## What the log assumes -/

/-- The codec of these crates can be trusted. -/
theorem kafka : Kafka crates where
  inspect := fun {records delta bytes bytes'} h h' => by
    obtain ⟨r, rfl, hr⟩ := encode_eq_ok h
    have h' : encode [r.shift delta] = .ok bytes' := h'
    obtain ⟨r', -, hr'⟩ := encode_eq_ok h'
    rw [inspect_encoded hr, inspect_encoded hr']
  single := fun h _ _ r hr first hfirst => by
    obtain ⟨r', rfl, -⟩ := encode_eq_ok h
    rw [List.mem_singleton.mp hr, Option.some.inj hfirst]
  decode := fun {records rs base bytes inspection} _ _ hassigned h hinspect _ => by
    obtain ⟨r, rfl, hr⟩ := encode_eq_ok h
    obtain rfl := Except.ok.inj ((inspect_encoded hr).symm.trans hinspect)
    have hoffset : i64Min ≤ r.offset ∧ r.offset ≤ i64Max := by
      simp only [assignedRecords, bind_eq_ok, rejectIf_eq_ok, pure, Except.pure,
        Except.ok.injEq] at hassigned
      obtain ⟨_, hfits, hmap⟩ := hassigned
      obtain ⟨x, rfl⟩ : ∃ x, records = [x] := by
        have := congrArg List.length hmap
        exact List.length_eq_one_iff.mp (by simpa using this)
      obtain rfl : x.assign base 0 = r := by simpa using hmap
      have hzero : checkedAddI64 base ((0 : Nat) : Int) ≠ none := fun hnone =>
        hfits ⟨0, by simp, hnone⟩
      obtain ⟨sum, hsum⟩ := Option.ne_none_iff_exists'.mp hzero
      exact (checkedAddI64_eq_some.mp hsum).1
    exact ⟨[[r]], decodeAll_encoded hr hoffset, rfl, by simp [headers_encoded hr]⟩

def engine : LogEngine where
  keyPrefix := "p"
  prefix_safe := by
    intro component hcomponent
    have hall : ∀ c ∈ "p".toList.splitOn '/', c = ['p'] := by decide
    rw [hall component hcomponent]
    decide

/-- Partition 0 of a topic. -/
def log : PartitionLog := ⟨crates, engine, "t", 0⟩

theorem topic_valid : validateTopic log.topic = .ok () := by decide

/-! ## The documents fit -/

theorem length_toList_of_validChecksum {text : String} (h : validChecksum text = true) :
    text.toList.length = 64 := by
  rw [validChecksum, Bool.and_eq_true] at h
  simpa using h.1

theorem length_of_namesUuid {space suffix name : String}
    (h : crates.namesUuid space suffix name = true) :
    name.toList.length = space.toList.length + 36 + suffix.toList.length := by
  obtain ⟨id, hid⟩ := Option.isSome_iff_exists.mp h
  obtain ⟨s, hs, hid⟩ := Option.bind_eq_some_iff.mp hid
  obtain ⟨rest, hrest, hend⟩ := Option.bind_eq_some_iff.mp hs
  have huuid := length_uuid (Option.isSome_iff_exists.mpr ⟨id, hid⟩)
  obtain rfl := stripStart_eq_some hrest
  obtain rfl := stripEnd_eq_some hend
  simp only [String.toList_append, List.length_append, huuid]
  omega

private theorem length_quote_name {text : String} (h : text.toList.length ≤ 80) :
    (quote text).length ≤ 482 := by
  have := length_quote_le text
  omega

private theorem length_quote_checksum {text : String} (h : validChecksum text = true) :
    (quote text).length ≤ 482 :=
  length_quote_name (by rw [length_toList_of_validChecksum h]; decide)

private theorem length_integer (n : Int) : (integer n).length ≤ 482 :=
  (length_integer_le n).trans (by decide)

private theorem length_natural (n : Nat) : (natural n).length ≤ 482 :=
  (length_natural_le n).trans (by decide)

/-- The names of all fields are short. -/
private theorem length_fields {fields : List (String × Document)} {n : Nat}
    (hname : ∀ field ∈ fields, field.1.toList.length ≤ 14)
    (hvalue : ∀ field ∈ fields, field.2.length ≤ n) :
    (object fields).length ≤ fields.length * (n + 88) + 2 :=
  length_object_le fun field hfield => by
    have hquote := length_quote_le field.1
    have hname := hname field hfield
    have hvalue := hvalue field hfield
    omega

private theorem length_optional (name : String) (value : Option Document) :
    (optional name value).length ≤ 1 := by
  cases value <;> simp [optional]

private theorem length_segmentText {s : Segment} (h : log.ValidSegment s)
    (hobject : ∃ id, s.object = log.segmentPath id) : (segmentText s).length ≤ 3422 := by
  have hname : s.object.toList.length ≤ 80 := by
    obtain ⟨id, hid⟩ := hobject
    have huuid := length_uuid (Option.isSome_iff_exists.mpr ⟨id, uuidParseStr_uuidToString id⟩)
    rw [hid, PartitionLog.segmentPath, Crates.segmentPath, String.toList_append,
      String.toList_append, List.length_append, List.length_append,
      show (log.crates.uuidToString id).toList.length = 36 from huuid]
    decide
  have hreceived := length_optional "received_at_ms" (s.receivedAtMs.map natural)
  refine (length_fields (n := 482) ?_ ?_).trans ?_
  · cases s.receivedAtMs <;> simp [optional]
  · have hcount := length_natural s.recordCount
    have hsize := length_natural s.byteLength
    cases s.receivedAtMs <;>
      simp [optional, length_quote_name hname, length_quote_checksum h.checksum,
        length_integer, length_natural, hcount, hsize]
  · simp only [List.length_append, List.length_cons, List.length_nil]
    omega

private theorem length_pageRefText {r : PageRef} (h : log.validatePageRef r = .ok ()) :
    (pageRefText r).length ≤ 3992 := by
  obtain ⟨hname, -, -, -, -, -, -, -, -, hchecksum⟩ := PartitionLog.validatePageRef_eq_ok.mp h
  have hlength := length_of_namesUuid hname
  have hobject : r.object.toList.length ≤ 80 := hlength.trans_le (by decide)
  refine (length_fields (n := 482) ?_ ?_).trans (by simp)
  · simp
  · simp [length_quote_name hobject, length_quote_checksum hchecksum, length_integer,
      length_natural]

private theorem length_producerRefText {r : ProducerRef}
    (h : log.validateProducerRef r = .ok ()) : (producerRefText r).length ≤ 3992 := by
  obtain ⟨hname, -, -, -, -, -, -, -, -, hchecksum⟩ :=
    PartitionLog.validateProducerRef_eq_ok.mp h
  have hlength := length_of_namesUuid hname
  have hobject : r.object.toList.length ≤ 80 := hlength.trans_le (by decide)
  refine (length_fields (n := 482) ?_ ?_).trans (by simp)
  · simp
  · simp [length_quote_name hobject, length_quote_checksum hchecksum, length_integer,
      length_natural]

private theorem length_producerStateText {p : ProducerState} (h : ValidState i64Max p) :
    (producerStateText p).length ≤ 35000 := by
  have hbatch : ∀ b ∈ p.batches, (batchText b).length ≤ 2282 := by
    intro b hb
    refine (length_fields (n := 482) ?_ ?_).trans (by simp)
    · simp
    · simp [length_quote_checksum (h.batches b hb).fingerprint, length_integer, length_natural]
  have hbatches : (array (p.batches.map batchText)).length ≤ _ :=
    length_array_le (n := 2282) (by simpa)
  have hlength := h.length_le
  simp only [List.length_map, retryBatches] at hbatches hlength
  refine (length_fields (n := 11417) ?_ ?_).trans (by simp)
  · simp
  · have hid := length_integer p.id
    have hepoch := length_integer p.epoch
    simp only [List.forall_mem_cons]
    exact ⟨by omega, by omega, by omega, by simp⟩

/-- A page of one field, around a list of at most 64 texts. -/
private theorem length_page {outer inner : String} {texts : List Document} {n : Nat}
    (houter : outer.toList.length ≤ 14) (hinner : inner.toList.length ≤ 14)
    (hlength : texts.length ≤ pageEntries) (h : ∀ text ∈ texts, text.length ≤ n)
    (hn : n ≤ 65000) :
    (object [(outer, object [(inner, array texts)])]).length ≤ maxManifestBytes := by
  have harray := length_array_le h
  have hmul : texts.length * (n + 1) ≤ 64 * 65001 := Nat.mul_le_mul hlength (by omega)
  have hinside : (object [(inner, array texts)]).length ≤ _ :=
    length_fields (n := 64 * 65001 + 2) (by simpa) (by simpa using harray.trans (by omega))
  refine (length_fields (n := 64 * 65001 + 92) (by simpa) ?_).trans ?_
  · simpa using hinside
  · simp [maxManifestBytes]

private theorem length_rootText {root : Root} (h : log.ValidRoot root)
    (hobjects : ∀ s ∈ root.tail, ∃ id, s.object = log.segmentPath id) :
    (rootText root).length ≤ maxManifestBytes := by
  have htail : (array (root.tail.map segmentText)).length ≤ 219074 := by
    have harray : (array (root.tail.map segmentText)).length ≤ _ := length_array_le (n := 3422)
      (by simpa using fun s hs => length_segmentText (h.tail_valid s hs) (hobjects s hs))
    have hlength := h.tail_le
    simp only [List.length_map, pageEntries] at harray hlength
    omega
  have htree : (nullable (root.tree.map pageRefText)).length ≤ 219074 := by
    cases htree : root.tree with
    | none => decide
    | some r => exact (length_pageRefText (h.tree r htree).1).trans (by simp)
  have hproducers : ∀ r ∈ root.producers, (producerRefText r).length ≤ 219074 := fun r hr =>
    (length_producerRefText (h.producers r hr)).trans (by simp)
  have hnatural : ∀ n, (natural n).length ≤ 219074 := fun n => (length_natural n).trans (by simp)
  have hinteger : ∀ n, (integer n).length ≤ 219074 := fun n => (length_integer n).trans (by simp)
  have hadopted := length_optional "adopted_at_ms" (root.adoptedAtMs.map natural)
  have hdirectory := length_optional "producers" (root.producers.map producerRefText)
  refine (length_fields (n := 219074) ?_ ?_).trans ?_
  · cases root.adoptedAtMs <;> cases root.producers <;> simp [optional]
  · rcases hmap : root.producers with _ | r
    · cases root.adoptedAtMs <;> simp [optional, hnatural, hinteger, htree, htail]
    · have hr := hproducers r hmap
      cases root.adoptedAtMs <;> simp [optional, hnatural, hinteger, htree, htail, hr]
  · simp only [List.length_append, List.length_cons, List.length_nil, maxManifestBytes]
    omega

/-- A document of at most 64 valid entries is within the limit. -/
theorem fits : Fits log where
  producerLeaf _ hlength h :=
    length_page (by decide) (by decide) (by simpa)
      (by simpa using fun p hp => length_producerStateText (h p hp)) (by decide)
  producerBranch _ hlength h :=
    length_page (by decide) (by decide) (by simpa)
      (by simpa using fun c hc => length_producerRefText (h c hc)) (by decide)
  leaf _ hlength h :=
    length_page (by decide) (by decide) (by simpa)
      (by simpa using fun s hs => length_segmentText (h s hs).1 (h s hs).2) (by decide)
  branch _ hlength h :=
    length_page (by decide) (by decide) (by simpa)
      (by simpa using fun c hc => length_pageRefText (h c hc)) (by decide)
  root _ h hobjects := length_rootText h hobjects

/-- A segment with one record. -/
def segment : Segment where
  object := log.segmentPath 0
  baseOffset := 0
  recordCount := 1
  byteLength := 69
  sha256 := sha256Hex (.raw (toBeBytes 0 ++ plainTail))
  receivedAtMs := some 0

/-- The root of a log with one segment. -/
def root : Root := { Root.empty with revision := 1, nextOffset := 1, tail := [segment] }

/-- What identifies the batch of producer 0. -/
def fingerprint : String := sha256Hex (.raw (toBeBytes 0 ++ numberedTail))

/-- The first state of producer 0. -/
def state : ProducerState := ⟨0, 0, [⟨0, 1, 0, fingerprint⟩]⟩

end Walstream.Log.Reference

import Walstream.Framing.Varint
import Walstream.Log.Codec
import Walstream.Wire.Accepting

/-!
# Varints

The readers of variable-length numbers: `read_var_i32` and `read_var_i64` of `codec.rs`, and
`unsigned_varint` of `wire.rs`. They invert the writers of the Kafka encodings.
-/

namespace Walstream.Wire

open Framing Log

/-! ## Writers -/

/-- `push_unsigned_var`: what it pushes. -/
def pushUnsignedVar (value : Nat) : Bytes :=
  let byte := value % 128
  let value' := value / 128
  if value' = 0 then [UInt8.ofNat byte] else UInt8.ofNat (byte + 128) :: pushUnsignedVar value'
termination_by value
decreasing_by omega

/-- `((value as uN) << 1) ^ ((value >> (N - 1)) as uN)`. -/
def zigZag (width : Nat) (value : Int) : Nat :=
  let bits := BitVec.ofInt width value
  ((bits <<< 1) ^^^ bits.sshiftRight (width - 1)).toNat

/-- `push_var_i32`. -/
def pushVarI32 (value : Int) : Bytes := pushUnsignedVar (zigZag 32 value)

/-- `push_var_i64`. -/
def pushVarI64 (value : Int) : Bytes := pushUnsignedVar (zigZag 64 value)

theorem pushUnsignedVar_eq (value : Nat) : pushUnsignedVar value = groups value := by
  induction value using Nat.strongRecOn with
  | ind value ih =>
    rw [pushUnsignedVar, groups]
    by_cases hsmall : value < 128
    · have hzero : value / 128 = 0 := by omega
      rw [if_pos hzero, if_pos hsmall, Nat.mod_eq_of_lt hsmall]
    · have hne : ¬ value / 128 = 0 := by omega
      rw [if_neg hne, if_neg hsmall, ih (value / 128) (by omega)]

/-! ## Zig-zag on words -/

section Words

variable {width n : Nat} {value : Int}

theorem toNat_ofInt_of_nonneg (h : 0 ≤ value ∧ value < 2 ^ width) :
    (BitVec.ofInt width value).toNat = value.toNat := by
  rw [BitVec.toNat_ofInt, Int.emod_eq_of_lt h.1 (by exact_mod_cast h.2)]

theorem toNat_ofInt_of_neg (h : -2 ^ width ≤ value ∧ value < 0) :
    (BitVec.ofInt width value).toNat = (value + 2 ^ width).toNat := by
  have hmod : value % ((2 ^ width : Nat) : Int) = value + 2 ^ width := by
    rw [← Int.add_mul_emod_self_left value _ 1, mul_one, Nat.cast_pow, Nat.cast_ofNat]
    exact Int.emod_eq_of_lt (by omega) (by omega)
  rw [BitVec.toNat_ofInt, hmod]

/-- The numbering on words is the numbering of the integers. -/
theorem zigZag_eq (h : -2 ^ width ≤ value ∧ value < 2 ^ width) :
    zigZag (width + 1) value = zigzag value := by
  have hpow : (2 : Int) ^ (width + 1) = 2 * 2 ^ width := by rw [pow_succ, mul_comm]
  have hpow' : 2 ^ (width + 1) = 2 * 2 ^ width := by rw [pow_succ, mul_comm]
  have hcast : ((2 ^ width : Nat) : Int) = 2 ^ width := by norm_cast
  unfold zigZag zigzag
  dsimp only
  rw [Nat.add_sub_cancel]
  -- a number that is not negative is doubled
  by_cases hneg : 0 ≤ value
  · have hbits : (BitVec.ofInt (width + 1) value).toNat = value.toNat :=
      toNat_ofInt_of_nonneg ⟨hneg, by omega⟩
    have hmsb : (BitVec.ofInt (width + 1) value).msb = false := by
      rw [BitVec.msb_eq_decide, hbits, Nat.add_sub_cancel]
      exact decide_eq_false (by omega)
    have hsign : (BitVec.ofInt (width + 1) value).sshiftRight width = 0#(width + 1) := by
      apply BitVec.eq_of_toNat_eq
      rw [BitVec.toNat_sshiftRight_of_msb_false hmsb, hbits, Nat.shiftRight_eq_div_pow]
      exact Nat.div_eq_of_lt (by omega)
    rw [if_pos hneg, hsign, BitVec.xor_zero, BitVec.toNat_shiftLeft, hbits, Nat.shiftLeft_eq,
      Nat.mod_eq_of_lt (by omega)]
    omega
  -- a negative one is doubled as well, and every bit is flipped
  · have hbits : (BitVec.ofInt (width + 1) value).toNat = (value + 2 ^ (width + 1)).toNat :=
      toNat_ofInt_of_neg ⟨by omega, by omega⟩
    have hmsb : (BitVec.ofInt (width + 1) value).msb = true := by
      rw [BitVec.msb_eq_decide, hbits, Nat.add_sub_cancel]
      exact decide_eq_true (by omega)
    have hsign : (BitVec.ofInt (width + 1) value).sshiftRight width = BitVec.allOnes (width + 1) := by
      apply BitVec.eq_of_toNat_eq
      rw [BitVec.toNat_sshiftRight_of_msb_true hmsb, hbits, Nat.shiftRight_eq_div_pow,
        Nat.div_eq_of_lt (by omega), BitVec.toNat_allOnes]
      omega
    have htwice : (value + 2 ^ (width + 1)).toNat * 2 ^ 1 % 2 ^ (width + 1) =
        (2 * value + 2 ^ (width + 1)).toNat := by
      have hsplit : (value + 2 ^ (width + 1)).toNat * 2 ^ 1 =
          (2 * value + 2 ^ (width + 1)).toNat + 2 ^ (width + 1) := by omega
      rw [hsplit, Nat.add_mod_right]
      exact Nat.mod_eq_of_lt (by omega)
    rw [if_neg hneg, hsign, BitVec.xor_allOnes, BitVec.toNat_not, BitVec.toNat_shiftLeft, hbits,
      Nat.shiftLeft_eq, htwice]
    omega

theorem unZigZag_eq (h : n < 2 ^ (width + 1)) : unZigZag (width + 1) n = unzigzag n := by
  have hpow : 2 ^ (width + 1) = 2 * 2 ^ width := by rw [pow_succ, mul_comm]
  have hbits : (BitVec.ofNat (width + 1) n).toNat = n := by
    rw [BitVec.toNat_ofNat, Nat.mod_eq_of_lt h]
  have hone : (BitVec.ofNat (width + 1) 1).toNat = 1 := by
    rw [BitVec.toNat_ofNat, Nat.mod_eq_of_lt (by omega)]
  -- halving shifts the sign bit out
  have hhalf : (BitVec.ofNat (width + 1) n >>> 1).toNat = n / 2 := by
    rw [BitVec.toNat_ushiftRight, hbits, Nat.shiftRight_eq_div_pow, pow_one]
  have hlow : (BitVec.ofNat (width + 1) n &&& BitVec.ofNat (width + 1) 1).toNat = n % 2 := by
    rw [BitVec.toNat_and, hbits, hone, Nat.and_one_is_mod]
  have hsigned : (BitVec.ofNat (width + 1) n >>> 1).toInt = (n / 2 : Nat) := by
    rw [BitVec.toInt_eq_toNat_of_lt (by omega), hhalf]
  unfold unZigZag unzigzag
  dsimp only
  -- an even number stands for its half, and an odd one for the complement of its half
  by_cases heven : n % 2 = 0
  · have hzero : BitVec.ofNat (width + 1) n &&& BitVec.ofNat (width + 1) 1 = 0#(width + 1) := by
      apply BitVec.eq_of_toNat_eq
      rw [hlow, heven]
      simp
    rw [if_pos heven, hzero, BitVec.neg_zero, BitVec.xor_zero, hsigned]
  · have hunit : BitVec.ofNat (width + 1) n &&& BitVec.ofNat (width + 1) 1 = 1#(width + 1) := by
      apply BitVec.eq_of_toNat_eq
      rw [hlow, hone]
      omega
    rw [if_neg heven, hunit, BitVec.neg_one_eq_allOnes, BitVec.xor_allOnes, BitVec.toInt,
      BitVec.toNat_not, hhalf, if_neg (by omega)]
    omega

end Words

/-! ## What a raw reader takes -/

/-- The reader returns `a` exactly when the slice starts with bytes such that `F a`, and leaves
what follows them. -/
def Takes {α : Type} (x : RawReader α) (F : α → Bytes → Prop) : Prop :=
  ∀ input a rest, x.run input = .ok (a, rest) ↔ ∃ bytes, input = bytes ++ rest ∧ F a bytes

section Takes

variable {α β : Type} {x : RawReader α} {F F' : α → Bytes → Prop}

theorem run_bind_eq_ok {f : α → RawReader β} {input : Bytes} {r : β × Bytes} :
    (x >>= f).run input = .ok r ↔
      ∃ a rest, x.run input = .ok (a, rest) ∧ (f a).run rest = .ok r := by
  rw [StateT.run_bind]
  cases hx : x.run input with
  | error e => simp [bind, Except.bind]
  | ok p =>
    constructor
    · intro h
      exact ⟨p.1, p.2, rfl, h⟩
    · rintro ⟨a, rest, hp, h⟩
      cases hp
      exact h

theorem takes_pure (a : α) : Takes (pure a) fun a' bytes => a' = a ∧ bytes = [] := by
  intro input a' rest
  constructor
  · intro h
    cases h
    exact ⟨[], rfl, rfl, rfl⟩
  · rintro ⟨bytes, rfl, rfl, rfl⟩
    rfl

theorem takes_throw (e : CodecError) : Takes (throw e : RawReader α) fun _ _ => False := by
  intro input a rest
  constructor
  · intro h
    cases h
  · rintro ⟨bytes, -, h⟩
    exact h.elim

theorem Takes.bind {f : α → RawReader β} {G : α → β → Bytes → Prop} (hx : Takes x F)
    (hf : ∀ a, Takes (f a) (G a)) :
    Takes (x >>= f) fun b bytes => ∃ a first second, bytes = first ++ second ∧ F a first ∧
      G a b second := by
  intro input b rest
  rw [run_bind_eq_ok]
  constructor
  · rintro ⟨a, mid, hrun, hrest⟩
    obtain ⟨first, rfl, hfirst⟩ := (hx input a mid).mp hrun
    obtain ⟨second, rfl, hsecond⟩ := (hf a mid b rest).mp hrest
    exact ⟨first ++ second, by simp, a, first, second, rfl, hfirst, hsecond⟩
  · rintro ⟨bytes, rfl, a, first, second, rfl, hfirst, hsecond⟩
    rw [List.append_assoc]
    exact ⟨a, second ++ rest, (hx _ a _).mpr ⟨first, rfl, hfirst⟩,
      (hf a _ b rest).mpr ⟨second, rfl, hsecond⟩⟩

theorem Takes.congr (h : Takes x F) (hF : ∀ a bytes, F a bytes ↔ F' a bytes) : Takes x F' := by
  intro input a rest
  rw [h]
  simp only [hF]

/-- A check between two readers. -/
theorem takes_ite {p : Prop} [Decidable p] {e : CodecError} (hx : Takes x F) :
    Takes (if p then throw e else x) fun a bytes => ¬ p ∧ F a bytes := by
  by_cases hp : p
  · rw [if_pos hp]
    exact (takes_throw e).congr fun a bytes => ⟨False.elim, fun h => h.1 hp⟩
  · rw [if_neg hp]
    exact hx.congr fun a bytes => ⟨fun h => ⟨hp, h⟩, fun h => h.2⟩

theorem takes_takeRaw (length : Nat) :
    Takes (takeRaw length) fun a bytes => a = bytes ∧ bytes.length = length := by
  intro input a rest
  show (if input.length < length then _ else _ : Except CodecError (Bytes × Bytes)) = _ ↔ _
  split
  · next hshort =>
    constructor
    · intro h
      cases h
    · rintro ⟨bytes, rfl, -, rfl⟩
      rw [List.length_append] at hshort
      omega
  · next hlong =>
    constructor
    · intro h
      cases h
      refine ⟨input.take length, (List.take_append_drop ..).symm, rfl, ?_⟩
      rw [List.length_take]
      omega
    · rintro ⟨bytes, rfl, rfl, rfl⟩
      simp

end Takes

/-! ## Readers -/

theorem takes_readUnsignedVarFrom {maximumBytes width last fuel index value : Nat}
    (hlimits : (maximumBytes = 5 ∧ width = 32 ∧ last = 4) ∨
      (maximumBytes = 10 ∧ width = 64 ∧ last = 9))
    (hfuel : fuel + index = last + 1) (hvalue : value < 2 ^ (7 * index)) :
    Takes (readUnsignedVarFrom maximumBytes fuel index value)
      (RestOfGroup width fuel index value) := by
  have hwidth : 7 * last < width ∧ width ≤ 7 * (last + 1) := by omega
  induction fuel generalizing index value with
  | zero =>
    refine (takes_throw _).congr fun a bytes => ⟨False.elim, fun h => ?_⟩
    obtain rfl : bytes = [] := List.length_eq_zero_iff.mp (Nat.le_zero.mp h.1)
    exact restOfGroup_nil h
  | succ fuel ih =>
    -- the check of the source is that of the last byte that is allowed
    have hcheck : ∀ payload, ((index * 7 = 28 ∧ maximumBytes = 5 ∧ payload > 15) ∨
        (index * 7 = 63 ∧ maximumBytes = 10 ∧ payload > 1)) ↔
          index = last ∧ 2 ^ (width - 7 * last) ≤ payload := by
      intro payload
      obtain ⟨rfl, rfl, rfl⟩ | ⟨rfl, rfl, rfl⟩ := hlimits
      · have hbits : 2 ^ (32 - 7 * 4) = 16 := rfl
        omega
      · have hbits : 2 ^ (64 - 7 * 9) = 2 := rfl
        omega
    -- what is read after the byte `first`
    let after (first : Bytes) (a : Nat) (bytes : Bytes) : Prop :=
      ¬ (index = last ∧ 2 ^ (width - 7 * last) ≤ (first.headD 0).toNat % 128) ∧
      (if (first.headD 0).toNat < 128 then
        a = value + 2 ^ (7 * index) * ((first.headD 0).toNat % 128) ∧ bytes = []
      else RestOfGroup width fuel (index + 1)
        (value + 2 ^ (7 * index) * ((first.headD 0).toNat % 128)) a bytes)
    have hafter : ∀ first, Takes (do
        let byte := (List.headD first 0).toNat
        let payload := byte % 128
        let shift := index * 7
        if (shift = 28 ∧ maximumBytes = 5 ∧ payload > 15) ∨
            (shift = 63 ∧ maximumBytes = 10 ∧ payload > 1) then
          throw .malformed
        let value := value ||| (payload <<< shift)
        if byte < 128 then return value
        readUnsignedVarFrom maximumBytes fuel (index + 1) value) (after first) := by
      intro first
      dsimp only
      rw [or_shiftLeft hvalue]
      by_cases hbits : index = last ∧ 2 ^ (width - 7 * last) ≤ (first.headD 0).toNat % 128
      · rw [if_pos ((hcheck _).mpr hbits)]
        exact (takes_throw _).congr fun a bytes => ⟨False.elim, fun h => h.1 hbits⟩
      · rw [if_neg (mt (hcheck _).mp hbits)]
        by_cases hsmall : (first.headD 0).toNat < 128
        · rw [if_pos hsmall]
          refine (takes_pure _).congr fun a bytes => ?_
          simp only [after, hbits, not_false_eq_true, true_and, if_pos hsmall]
        · rw [if_neg hsmall]
          refine (ih (by omega) (value_lt _ hvalue)).congr fun a bytes => ?_
          simp only [after, hbits, not_false_eq_true, true_and, if_neg hsmall]
    refine ((takes_takeRaw 1).bind hafter).congr fun a bytes => ?_
    constructor
    · rintro ⟨_, first, second, rfl, ⟨rfl, hlength⟩, hsecond⟩
      obtain ⟨b, rfl⟩ := List.length_eq_one_iff.mp hlength
      exact (restOfGroup_cons (by omega) hwidth hvalue b second).mpr hsecond
    · intro h
      cases bytes with
      | nil => exact (restOfGroup_nil h).elim
      | cons b rest =>
        refine ⟨[b], [b], rest, rfl, ⟨rfl, rfl⟩, ?_⟩
        exact (restOfGroup_cons (by omega) hwidth hvalue b rest).mp h

theorem takes_readUnsignedVar {maximumBytes width last : Nat}
    (hlimits : (maximumBytes = 5 ∧ width = 32 ∧ last = 4) ∨
      (maximumBytes = 10 ∧ width = 64 ∧ last = 9)) :
    Takes (readUnsignedVar maximumBytes) fun n bytes =>
      bytes.length ≤ maximumBytes ∧ n < 2 ^ width ∧ Groups bytes n := by
  have hloop : Takes (readUnsignedVar maximumBytes) (RestOfGroup width maximumBytes 0 0) :=
    takes_readUnsignedVarFrom hlimits (by omega) (by decide)
  exact hloop.congr fun n bytes => restOfGroup_zero

/-- The bytes are the zig-zag encoding of the number, in at most `maximumBytes` bytes. -/
def SignedVarint (maximumBytes width : Nat) (value : Int) (bytes : Bytes) : Prop :=
  ∃ n, Groups bytes n ∧ bytes.length ≤ maximumBytes ∧ n < 2 ^ width ∧ value = unzigzag n

theorem takes_readVarI32 : Takes readVarI32 (SignedVarint 5 32) := by
  have hread := takes_readUnsignedVar (.inl ⟨rfl, rfl, rfl⟩)
  refine (hread.bind fun n => takes_ite (takes_pure (unZigZag 32 n))).congr fun value bytes => ?_
  constructor
  · rintro ⟨n, first, second, rfl, ⟨hlength, hmax, hgroups⟩, -, rfl, rfl⟩
    rw [List.append_nil]
    exact ⟨n, hgroups, hlength, hmax, unZigZag_eq hmax⟩
  · rintro ⟨n, hgroups, hlength, hmax, rfl⟩
    exact ⟨n, bytes, [], by simp, ⟨hlength, hmax, hgroups⟩, by omega, (unZigZag_eq hmax).symm, rfl⟩

theorem takes_readVarI64 : Takes readVarI64 (SignedVarint 10 64) := by
  have hread := takes_readUnsignedVar (.inr ⟨rfl, rfl, rfl⟩)
  refine (hread.bind fun n => takes_pure (unZigZag 64 n)).congr fun value bytes => ?_
  constructor
  · rintro ⟨n, first, second, rfl, ⟨hlength, hmax, hgroups⟩, rfl, rfl⟩
    rw [List.append_nil]
    exact ⟨n, hgroups, hlength, hmax, unZigZag_eq hmax⟩
  · rintro ⟨n, hgroups, hlength, hmax, rfl⟩
    exact ⟨n, bytes, [], by simp, ⟨hlength, hmax, hgroups⟩, (unZigZag_eq hmax).symm, rfl⟩

/-- `unsigned_varint` on a cursor with this input: the result, and the input that is left. -/
def readUnsignedVarint (collectionItemsLeft itemSteps : Nat) (input : Bytes) :
    Except WireError (Nat × Bytes) :=
  match run unsignedVarint ⟨input, collectionItemsLeft, itemSteps⟩ with
  | (.ok value, cursor) => .ok (value, cursor.input)
  | (.error e, _) => .error e

theorem readUnsignedVarint_eq_ok {collectionItemsLeft itemSteps n : Nat} {input rest : Bytes} :
    readUnsignedVarint collectionItemsLeft itemSteps input = .ok (n, rest) ↔
      ∃ bytes, input = bytes ++ rest ∧ Varint bytes n := by
  unfold readUnsignedVarint
  constructor
  · intro h
    cases hrun : run unsignedVarint ⟨input, collectionItemsLeft, itemSteps⟩ with
    | mk result cursor =>
      rw [hrun] at h
      cases result with
      | error e => cases h
      | ok value =>
        cases h
        obtain ⟨bytes, items, hinput, -, hvarint, -⟩ := reads_unsignedVarint.sound hrun
        exact ⟨bytes, hinput, hvarint⟩
  · rintro ⟨bytes, hinput, hvarint⟩
    obtain ⟨steps, hrun⟩ := reads_unsignedVarint.complete
      (c := ⟨input, collectionItemsLeft, itemSteps⟩) hinput ⟨hvarint, rfl⟩ (Nat.zero_le _)
    rw [hrun]

/-- **The readers of variable-length numbers invert the Kafka encodings**: they return the
numbers that were written, accept every group within their limits, and fail on everything
else. -/
theorem varint_readers_invert :
    VarintReader readVarI32.run 5 32 unzigzag pushVarI32 (fun v => -2 ^ 31 ≤ v ∧ v < 2 ^ 31) ∧
    VarintReader readVarI64.run 10 64 unzigzag pushVarI64 (fun v => -2 ^ 63 ≤ v ∧ v < 2 ^ 63) ∧
    ∀ collectionItemsLeft itemSteps,
      VarintReader (readUnsignedVarint collectionItemsLeft itemSteps) 5 32 id pushUnsignedVar
        (fun n => n < 2 ^ 32) := by
  -- the three readers have the same groups, and the signed ones their numbering besides
  refine ⟨?_, ?_, fun collectionItemsLeft itemSteps => ?_⟩
  · refine varintReader_of_reads (fun input v rest => ?_) (fun v hv => ?_) fun n hn => ?_
    · exact takes_readVarI32 input v rest
    · have hmax : zigzag v < 2 * 2 ^ 31 := zigzag_lt (by exact_mod_cast hv)
      refine ⟨zigzag v, ?_, length_groups_le (lt_trans hmax (by decide)), hmax,
        (unzigzag_zigzag v).symm⟩
      rw [pushVarI32, pushUnsignedVar_eq, zigZag_eq hv]
    · have hrange := unzigzag_mem (show n < 2 * 2 ^ 31 from hn)
      exact_mod_cast hrange
  · refine varintReader_of_reads (fun input v rest => ?_) (fun v hv => ?_) fun n hn => ?_
    · exact takes_readVarI64 input v rest
    · have hmax : zigzag v < 2 * 2 ^ 63 := zigzag_lt (by exact_mod_cast hv)
      refine ⟨zigzag v, ?_, length_groups_le (lt_trans hmax (by decide)), hmax,
        (unzigzag_zigzag v).symm⟩
      rw [pushVarI64, pushUnsignedVar_eq, zigZag_eq hv]
    · have hrange := unzigzag_mem (show n < 2 * 2 ^ 63 from hn)
      exact_mod_cast hrange
  · refine varintReader_of_reads (fun input n rest => ?_) (fun n hn => ?_) fun n hn => hn
    · rw [readUnsignedVarint_eq_ok]
      constructor
      · rintro ⟨bytes, hinput, hgroups, hlength, hmax⟩
        exact ⟨bytes, hinput, n, hgroups, hlength, hmax, rfl⟩
      · rintro ⟨bytes, hinput, n', hgroups, hlength, hmax, rfl⟩
        exact ⟨bytes, hinput, hgroups, hlength, hmax⟩
    · exact ⟨n, pushUnsignedVar_eq n, length_groups_le (lt_trans hn (by decide)), hn, rfl⟩

end Walstream.Wire

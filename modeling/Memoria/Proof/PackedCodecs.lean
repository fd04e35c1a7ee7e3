import Memoria.PackedCodecs
import Memoria.Proof.BitRuns

/-!
# The codecs of the packed trees: the codes

A value that is not negative has a code in each of the codecs, and a negative one is not read back.
The Elias codec adds one to its values and loses the largest of them; the I64 codec has no header
for a length of 64 bits.
-/

namespace Memoria

open Lib
open BitBuffer

namespace ByteLoops

variable {t : ValueType}

theorem lengthLoop_eq {value : BitVec t.bits} (h : 0 ≤ t.num value) (length : ℕ) :
    lengthLoop t value length = length + byteLen value.toNat := by
  have hnat := ValueType.num_eq_toNat h
  fun_induction lengthLoop t value length with
  | case1 value length hpos ih =>
      have hrest := ValueType.num_shiftRight h 8
      have hlen := byteLen_of_pos (by omega : 0 < value.toNat)
      rw [ih hrest (ValueType.num_eq_toNat hrest), ValueType.toNat_shiftRight h, hlen]
      exact Nat.add_right_comm _ _ _
  | case2 value length hpos =>
      rw [show value.toNat = 0 by omega, byteLen_zero, Nat.add_zero]

theorem encodeLoop_of_nonpos {value : BitVec t.bits} (h : ¬t.num value > 0) (start idx : ℕ)
    (buffer : Cells 8) : encodeLoop t start value idx buffer = buffer := by
  rw [encodeLoop, if_neg h]

theorem encodeLoop_eq {value : BitVec t.bits} (h : 0 ≤ t.num value) {start idx : ℕ}
    (hstart : start < idx) (buffer : Cells 8) :
    encodeLoop t start value idx buffer =
      Function.update (written buffer idx (byteLen value.toNat) (byteAt value.toNat)) start
        (buffer start + BitVec.ofNat 8 (byteLen value.toNat)) := by
  have hnat := ValueType.num_eq_toNat h
  fun_induction encodeLoop t start value idx buffer with
  | case1 value idx buffer hpos buffer1 buffer2 ih =>
      have hrest := ValueType.num_shiftRight h 8
      have hshift : (t.shiftRight value 8).toNat = value.toNat / 256 :=
        ValueType.toNat_shiftRight h 8
      have hlen := byteLen_of_pos (by omega : 0 < value.toNat)
      have hcount : buffer2 start = buffer start + 1 := by
        have hne : start ≠ idx := by omega
        simp only [buffer2, buffer1, Function.update_of_ne hne, Function.update_self]
      have hbytes : written buffer2 (idx + 1) (byteLen (value.toNat / 256))
          (byteAt (value.toNat / 256)) =
          written buffer1 idx (byteLen value.toNat) (byteAt value.toNat) := by
        simp only [buffer2]
        rw [← byteAt_zero, written_update, headed_byteAt, hlen, Nat.add_comm 1]
      rw [ih hrest (by omega) (ValueType.num_eq_toNat hrest), hshift, hcount, hbytes, hlen,
        Nat.add_comm _ 1, BitVec.ofNat_add, ← BitVec.add_assoc]
      apply update_written_update
  | case2 value idx buffer hpos =>
      rw [show value.toNat = 0 by omega, byteLen_zero, written_zero, BitVec.add_zero,
        Function.update_eq_self]

theorem getLsbD_decodeLoop (buffer : Cells 8) (n idx c : ℕ) (value : BitVec t.bits) {j : ℕ}
    (hj : j < t.bits) :
    (decodeLoop t buffer n idx (8 * c) value).getLsbD j = (value.getLsbD j ||
      (decide (c ≤ j / 8 ∧ j / 8 < c + n) && (buffer (idx + (j / 8 - c))).getLsbD (j % 8))) := by
  induction n generalizing idx c value with
  | zero =>
      rw [decodeLoop, decide_eq_false (by omega), Bool.false_and, Bool.or_false]
  | succ n ih =>
      rw [decodeLoop, show 8 * c + 8 = 8 * (c + 1) by omega, ih, BitVec.getLsbD_or,
        BitVec.getLsbD_shiftLeft, BitVec.getLsbD_setWidth, decide_eq_true hj, Bool.or_assoc,
        decide_eq_true (by omega : j - 8 * c < t.bits), Bool.true_and, Bool.true_and]
      congr 1
      rcases Nat.lt_trichotomy (j / 8) c with hlt | heq | hgt
      · rw [decide_eq_true (by omega : j < 8 * c),
          decide_eq_false (by omega : ¬(c + 1 ≤ j / 8 ∧ j / 8 < c + 1 + n)),
          decide_eq_false (by omega : ¬(c ≤ j / 8 ∧ j / 8 < c + (n + 1)))]
        rfl
      · rw [decide_eq_false (by omega : ¬j < 8 * c),
          decide_eq_false (by omega : ¬(c + 1 ≤ j / 8 ∧ j / 8 < c + 1 + n)),
          decide_eq_true (by omega : c ≤ j / 8 ∧ j / 8 < c + (n + 1)), heq, Nat.sub_self,
          show j - 8 * c = j % 8 by omega]
        simp only [Bool.not_false, Bool.true_and, Bool.false_and, Bool.or_false, Nat.add_zero]
      · rw [BitVec.getLsbD_of_ge _ _ (by omega : 8 ≤ j - 8 * c), Bool.and_false, Bool.false_or,
          show idx + 1 + (j / 8 - (c + 1)) = idx + (j / 8 - c) by omega]
        congr 1
        rw [decide_eq_decide]
        omega

theorem getLsbD_byteAt (v c : ℕ) {k : ℕ} (hk : k < 8) :
    (byteAt v c).getLsbD k = v.testBit (8 * c + k) := by
  rw [byteAt, BitVec.getLsbD_ofNat, decide_eq_true hk, Bool.true_and,
    show 256 ^ c = 2 ^ (8 * c) by rw [Nat.pow_mul], Nat.testBit_div_two_pow, Nat.add_comm]

/-- The bytes of a value are read as the value. -/
theorem decodeLoop_eq {buffer : Cells 8} {value : BitVec t.bits} {idx : ℕ}
    (h : ∀ i < byteLen value.toNat, buffer (idx + i) = byteAt value.toNat i) :
    decodeLoop t buffer (byteLen value.toNat) idx 0 0 = value := by
  apply BitVec.eq_of_getLsbD_eq
  intro j hj
  have hread := getLsbD_decodeLoop buffer (byteLen value.toNat) idx 0 0 hj
  rw [Nat.mul_zero] at hread
  have hzero : (0 : BitVec t.bits).getLsbD j = false := BitVec.getLsbD_zero
  rw [hread, hzero, Bool.false_or, Nat.sub_zero]
  by_cases hin : j / 8 < byteLen value.toNat
  · rw [decide_eq_true (by omega), Bool.true_and, h _ hin,
      getLsbD_byteAt _ _ (Nat.mod_lt j (by decide)), Nat.div_add_mod]
    rfl
  · have hlt : value.toNat < 2 ^ j := by
      have hle : byteLen value.toNat ≤ j / 8 := Nat.le_of_not_lt hin
      calc value.toNat < 256 ^ (j / 8) := byteLen_le_iff.mp hle
        _ = 2 ^ (8 * (j / 8)) := by rw [Nat.pow_mul]
        _ ≤ 2 ^ j := Nat.pow_le_pow_right (by decide) (by omega)
    rw [decide_eq_false (by omega), Bool.false_and]
    exact (Nat.testBit_lt_two_pow hlt).symm

end ByteLoops

namespace ValueType

variable (t : ValueType)

theorem bits_le : t.bits ≤ 64 := by
  cases t <;> decide

theorem le_bits : 32 ≤ t.bits := by
  cases t <;> decide

variable {t}

theorem num_nonneg {value : BitVec t.bits} (h : value.toNat < 2 ^ 31) : 0 ≤ t.num value := by
  have hle : 2 ^ 32 ≤ 2 ^ t.bits := Nat.pow_le_pow_right (by decide) t.le_bits
  rw [num]
  split_ifs
  · rw [BitVec.toInt_eq_toNat_of_lt (by omega)]
    exact Int.natCast_nonneg _
  · exact Int.natCast_nonneg _

theorem num_of_le {value bound : BitVec t.bits} (h : 0 ≤ t.num bound)
    (hle : value.toNat ≤ bound.toNat) : t.num value = value.toNat := by
  rw [num] at h ⊢
  split_ifs at h ⊢ with hsigned
  · have hlt := bound.isLt
    rw [BitVec.toInt_eq_toNat_cond] at h ⊢
    split_ifs at h ⊢ <;> omega
  · rfl

theorem num_zero : 0 ≤ t.num 0 := by
  apply num_nonneg
  rw [show (0 : BitVec t.bits).toNat = 0 from BitVec.toNat_zero]
  decide

theorem toNat_lt (value : BitVec t.bits) : value.toNat < 2 ^ 64 :=
  value.isLt.trans_le (Nat.pow_le_pow_right (by decide) t.bits_le)

theorem toNat_u64 {value : BitVec t.bits} (h : 0 ≤ t.num value) :
    (t.u64 value).toNat = value.toNat := by
  have hlt := toNat_lt value
  rw [u64]
  split_ifs with hsigned
  · rw [BitVec.signExtend_eq_setWidth_of_msb_false (msb_of_nonneg h hsigned),
      BitVec.toNat_setWidth, Nat.mod_eq_of_lt hlt]
  · rw [BitVec.toNat_setWidth, Nat.mod_eq_of_lt hlt]

theorem ofU64_eq {value : BitVec t.bits} {x : BitVec 64} (h : x.toNat = value.toNat) :
    t.ofU64 x = value := by
  apply BitVec.eq_of_toNat_eq
  rw [ofU64, BitVec.toNat_setWidth, h, Nat.mod_eq_of_lt value.isLt]

theorem num_ofU64 {x : BitVec 64} (h : x.toNat < 2 ^ 31) : 0 ≤ t.num (t.ofU64 x) := by
  apply num_nonneg
  have hmod := Nat.mod_le x.toNat (2 ^ t.bits)
  rw [ofU64, BitVec.toNat_setWidth]
  omega

/-- A small number as a value. -/
theorem toNat_small {n : ℕ} (h : n < 2 ^ 31) : (BitVec.ofNat t.bits n).toNat = n := by
  have hle : 2 ^ 32 ≤ 2 ^ t.bits := Nat.pow_le_pow_right (by decide) t.le_bits
  rw [BitVec.toNat_ofNat, Nat.mod_eq_of_lt (by omega)]

/-- `(value << shift) + c`, when it is a small number. -/
theorem toNat_u64_shift {n c shift : ℕ} (h : n * 2 ^ shift + c < 2 ^ 31) {value : BitVec t.bits}
    (hvalue : value.toNat = n) :
    (t.u64 ((value <<< shift) + BitVec.ofNat t.bits c)).toNat = n * 2 ^ shift + c := by
  have hle : 2 ^ 32 ≤ 2 ^ t.bits := Nat.pow_le_pow_right (by decide) t.le_bits
  have hnat : ((value <<< shift) + BitVec.ofNat t.bits c).toNat = n * 2 ^ shift + c := by
    rw [BitVec.toNat_add, BitVec.toNat_shiftLeft, hvalue, Nat.shiftLeft_eq,
      toNat_small (by omega), Nat.mod_eq_of_lt (a := n * 2 ^ shift) (by omega),
      Nat.mod_eq_of_lt (by omega)]
  rw [toNat_u64 (num_nonneg (by omega)), hnat]

theorem byteLen_le (value : BitVec t.bits) : byteLen value.toNat ≤ 8 := by
  rw [byteLen_le_iff]
  calc value.toNat < 2 ^ t.bits := value.isLt
    _ ≤ 256 ^ 8 := Nat.pow_le_pow_right (by decide) t.bits_le

end ValueType

theorem and_twoPow_eq_zero_iff (val : BitVec 64) {i : ℕ} (hi : i < 64) :
    val &&& BitVec.twoPow 64 i = 0 ↔ val.getLsbD i = false := by
  rw [BitVec.and_twoPow]
  split_ifs with hbit
  · have hne : BitVec.twoPow 64 i ≠ 0 := by
      intro hzero
      have hone := congrArg (fun x : BitVec 64 => x.getLsbD i) hzero
      simp [hi] at hone
    rw [hbit]
    exact iff_of_false hne Bool.noConfusion
  · exact iff_of_true rfl (Bool.eq_false_of_not_eq_true hbit)

theorem ctLZ_add_size (val : BitVec 64) {n : ℕ} (hn : n < 64) (h : val.toNat < 2 ^ (n + 1)) :
    ctLZ_ val n + val.toNat.size = n + 1 := by
  -- The bit that the mask of round `n` tests is the highest of a number below 2^(n + 1).
  have hhigh : ∀ n, val.toNat < 2 ^ (n + 1) →
      (val.getLsbD n = false ↔ val.toNat < 2 ^ n) := by
    intro n h
    have hlt : val.toNat / 2 ^ n < 2 := by
      rw [Nat.div_lt_iff_lt_mul (Nat.two_pow_pos n), Nat.mul_comm, ← Nat.pow_succ]
      exact h
    rw [← Nat.div_eq_zero_iff_lt (Nat.two_pow_pos n)]
    change val.toNat.testBit n = false ↔ _
    rw [Nat.testBit_eq_decide_div_mod_eq, decide_eq_false_iff_not]
    generalize val.toNat / 2 ^ n = high at hlt ⊢
    omega
  have hsize : ∀ n, ¬val.toNat < 2 ^ n → val.toNat < 2 ^ (n + 1) → val.toNat.size = n + 1 := by
    intro n hge hlt
    rw [← Nat.size_le] at hge hlt
    omega
  induction n with
  | zero =>
      rw [ctLZ_]
      split_ifs with hzero <;> rw [and_twoPow_eq_zero_iff val hn, hhigh 0 h] at hzero
      · rw [show val.toNat = 0 by omega, Nat.size_zero]
      · rw [hsize 0 hzero h]
  | succ n ih =>
      rw [ctLZ_]
      split_ifs with hzero <;> rw [and_twoPow_eq_zero_iff val hn, hhigh (n + 1) h] at hzero
      · rw [Nat.add_assoc, ih (by omega) hzero, Nat.add_comm]
      · rw [hsize (n + 1) hzero h, Nat.zero_add]

theorem log2_eq (value : BitVec 64) : log2 value = value.toNat.size := by
  have h := ctLZ_add_size value (by decide : 63 < 64) value.isLt
  rw [log2, ctLZ]
  omega

theorem testBit_eq (buf : Cells 64) (idx : ℕ) : testBit buf idx = bit buf idx := by
  have hin : idx % 64 < 64 := Nat.mod_lt idx (by decide)
  rw [testBit, ← BitVec.twoPow_eq, bit, decide_not, Bool.eq_iff_iff, Bool.not_eq_true',
    decide_eq_false_iff_not, and_twoPow_eq_zero_iff _ hin, Bool.not_eq_false]

theorem bit_clearBit (buf : Cells 64) (idx : ℕ) :
    bit (clearBit buf idx) = written (bit buf) idx 1 fun _ => false := by
  have hin : idx % 64 < 64 := Nat.mod_lt idx (by decide)
  rw [clearBit]
  apply bit_update_written buf (by omega : idx % 64 + 1 ≤ 64)
  · intro i hi
    rw [Nat.lt_one_iff.mp hi, Nat.add_zero, ← BitVec.twoPow_eq]
    simp [hin]
  · intro j hj hne
    have hidx : j ≠ idx % 64 := by omega
    rw [← BitVec.twoPow_eq]
    simp [hj, hidx]

/-- A group that holds the bits of a number is the number, cut to its length. -/
theorem toNat_getBits (buf : Cells 64) {idx n m : ℕ} (hn : n ≤ 64)
    (h : ∀ i < n, bit buf (idx + i) = m.testBit i) : (getBits buf idx n).toNat = m % 2 ^ n := by
  apply Nat.eq_of_testBit_eq
  intro i
  change (getBits buf idx n).getLsbD i = _
  rw [getLsbD_getBits (by decide) buf hn, Nat.testBit_mod_two_pow]
  by_cases hin : i < n
  · rw [h i hin]
  · rw [decide_eq_false hin, Bool.false_and, Bool.false_and]

theorem getBits_eq (buf : Cells 64) {idx n : ℕ} {x : BitVec 64} (hn : n ≤ 64)
    (hx : x.toNat < 2 ^ n) (h : ∀ i < n, bit buf (idx + i) = x.getLsbD i) :
    getBits buf idx n = x := by
  apply BitVec.eq_of_toNat_eq
  rw [toNat_getBits buf hn h, Nat.mod_eq_of_lt hx]

theorem toNat_getBits_lt (buf : Cells 64) (idx : ℕ) {n : ℕ} (hn : n ≤ 64) :
    (getBits buf idx n).toNat < 2 ^ n := by
  apply Nat.lt_pow_two_of_testBit
  intro i hi
  change (getBits buf idx n).getLsbD i = false
  rw [getLsbD_getBits (by decide) buf hn, decide_eq_false (by omega), Bool.false_and]

namespace EliasDeltaCodec

variable {t : ValueType}

def Good (t : ValueType) (value : BitVec t.bits) : Prop :=
  0 ≤ t.num value ∧ t.num (value + 1) = t.num value + 1

def zeroes (value : BitVec t.bits) : ℕ := value.toNat.size.size - 1

/-- The zeroes, the number of the bits without its highest one, behind a one that ends the zeroes,
and the bits without the highest one. -/
def code (value : BitVec t.bits) (i : ℕ) : Bool :=
  if i < zeroes value then false
  else if i < zeroes value + (zeroes value + 1) then
    (2 * value.toNat.size + 1).testBit (i - zeroes value)
  else value.getLsbD (i - (zeroes value + (zeroes value + 1)))

theorem Good.toNat_succ {value : BitVec t.bits} (h : Good t value) :
    t.num (value + 1) = (value + 1).toNat ∧ 0 < (value + 1).toNat := by
  have hpos : 0 < t.num (value + 1) := by
    rw [h.2]
    exact Int.lt_add_one_of_le h.1
  have hnat := ValueType.num_eq_toNat hpos.le
  exact ⟨hnat, by omega⟩

theorem size_pos {n : ℕ} (h : 0 < n) : 0 < n.size :=
  Nat.size_pos.mpr h

theorem getEliasDeltaValueLength_eq {value : BitVec t.bits} (h : 0 ≤ t.num value)
    (hpos : 0 < value.toNat) :
    getEliasDeltaValueLength t value = 2 * zeroes value + value.toNat.size := by
  have hsize : value.toNat.size ≤ 64 := Nat.size_le.mpr (ValueType.toNat_lt value)
  have hsize' : value.toNat.size.size ≤ 64 := Nat.size_le.mpr (by omega)
  have hpos' : 1 ≤ value.toNat.size.size := size_pos (size_pos hpos)
  rw [getEliasDeltaValueLength, log2_eq, log2_eq, ValueType.toNat_u64 h, BitVec.toNat_ofNat,
    Nat.mod_eq_of_lt (by omega : value.toNat.size < 2 ^ 64), sub64, if_pos hpos', zeroes]
  omega

theorem zeroes_lt {value : BitVec t.bits} : zeroes value < 64 := by
  have hsize : value.toNat.size ≤ 64 := Nat.size_le.mpr (ValueType.toNat_lt value)
  have hsize' : value.toNat.size.size ≤ 7 := Nat.size_le.mpr (by omega)
  rw [zeroes]
  omega

/-- What is written for a value that is not 0. -/
theorem encodeEliasDelta_eq {value : BitVec t.bits} (h : 0 ≤ t.num value) (hpos : 0 < value.toNat)
    (buffer : Cells 64) (start : ℕ) :
    bit (encodeEliasDelta t buffer value start).1 =
        written (bit buffer) start (2 * zeroes value + value.toNat.size) (code value) ∧
      (encodeEliasDelta t buffer value start).2 = 2 * zeroes value + value.toNat.size := by
  have hnat := ValueType.num_eq_toNat h
  by_cases hone : t.num value > 1
  · have hsize : value.toNat.size ≤ 64 := Nat.size_le.mpr (ValueType.toNat_lt value)
    have hlt : zeroes value < 64 := zeroes_lt
    have hlen := size_pos hpos
    have hlog : log2 (t.u64 value) = value.toNat.size := by
      rw [log2_eq, ValueType.toNat_u64 h]
    have hzeroes : log2 (BitVec.ofNat 64 value.toNat.size) - 1 = zeroes value := by
      rw [log2_eq, BitVec.toNat_ofNat, Nat.mod_eq_of_lt (by omega), zeroes]
    have hlength : (t.u64 ((BitVec.ofNat t.bits value.toNat.size <<< 1) + 1)).toNat =
        2 * value.toNat.size + 1 := by
      rw [Nat.mul_comm 2]
      exact ValueType.toNat_u64_shift (c := 1) (by omega) (ValueType.toNat_small (by omega))
    have hzero : bit (fillZero buffer start (start + zeroes value)) =
        written (bit buffer) start (zeroes value) (code value) := by
      rw [bit_fillZero (by decide) (by decide) _ (by omega)]
      funext i
      rw [Bitmap.fillZero, ← written_const, Nat.add_sub_cancel_left]
      apply congrFun
      apply written_congr
      intro j hj
      rw [code, if_pos hj]
    have hhead : ∀ i < zeroes value + 1,
        (t.u64 ((BitVec.ofNat t.bits value.toNat.size <<< 1) + 1)).getLsbD i =
          code value (zeroes value + i) := by
      intro i hi
      rw [BitVec.getLsbD, hlength, code, if_neg (by omega), if_pos (by omega),
        Nat.add_sub_cancel_left]
    have hbody : (t.u64 value).getLsbD =
        fun i => code value (zeroes value + (zeroes value + 1) + i) := by
      funext i
      rw [BitVec.getLsbD, ValueType.toNat_u64 h, code, if_neg (by omega), if_neg (by omega),
        Nat.add_sub_cancel_left]
      rfl
    rw [encodeEliasDelta, if_pos hone]
    dsimp only
    rw [hlog, hzeroes, bit_setBits (by decide) _ _ _ (by omega),
      bit_setBits (by decide) _ _ _ (by omega), hzero, written_congr hhead, written_written,
      hbody, Nat.add_assoc start, written_written,
      show zeroes value + (zeroes value + 1) + (value.toNat.size - 1) =
        2 * zeroes value + value.toNat.size by omega, Nat.mul_comm 2]
    exact ⟨rfl, rfl⟩
  · have hvalue : value.toNat = 1 := by omega
    have hsize : value.toNat.size = 1 := by
      rw [hvalue, Nat.size_one]
    have hzeroes : zeroes value = 0 := by
      rw [zeroes, hsize, Nat.size_one]
    rw [encodeEliasDelta, if_neg hone, hzeroes, hsize]
    dsimp only
    rw [bit_setBits (by decide) _ _ _ (by decide)]
    refine ⟨written_congr fun i hi => ?_, rfl⟩
    rw [Nat.lt_one_iff.mp hi, code, hzeroes, hsize]
    rfl

/-- What is read where the code of a value stands. -/
theorem decodeEliasDelta_eq {value : BitVec t.bits} (hpos : 0 < value.toNat)
    {buffer : Cells 64} {start limit : ℕ}
    (hlimit : start + (2 * zeroes value + value.toNat.size) ≤ limit)
    (hcode : ∀ i < 2 * zeroes value + value.toNat.size, bit buffer (start + i) = code value i) :
    decodeEliasDeltaLength buffer start limit = 2 * zeroes value + value.toNat.size ∧
      decodeEliasDelta t buffer start limit = (value, 2 * zeroes value + value.toNat.size) := by
  have hlen := size_pos hpos
  have hsize : value.toNat.size ≤ 64 := Nat.size_le.mpr (ValueType.toNat_lt value)
  have hlt : zeroes value < 64 := zeroes_lt
  by_cases hone : value.toNat = 1
  · have hsize : value.toNat.size = 1 := by
      rw [hone, Nat.size_one]
    have hzeroes : zeroes value = 0 := by
      rw [zeroes, hsize, Nat.size_one]
    have hvalue : value = 1 := by
      have hle : 2 ^ 32 ≤ 2 ^ t.bits := Nat.pow_le_pow_right (by decide) t.le_bits
      apply BitVec.eq_of_toNat_eq
      rw [hone]
      exact (ValueType.toNat_small (by decide)).symm
    have hbit : testBit buffer start = true := by
      rw [testBit_eq, ← Nat.add_zero start, hcode 0 (by omega), code, hzeroes, hsize]
      rfl
    rw [decodeEliasDeltaLength, decodeEliasDelta, if_pos hbit, if_pos hbit, hzeroes, hsize, hvalue]
    exact ⟨rfl, rfl⟩
  · have hsize2 : 1 < value.toNat.size := Nat.lt_size.mpr (by omega)
    have hsize3 : 1 < value.toNat.size.size := Nat.lt_size.mpr (by omega)
    have hzeroes : 0 < zeroes value := by
      rw [zeroes]
      omega
    have hbit : ¬testBit buffer start = true := by
      rw [testBit_eq, ← Nat.add_zero start, hcode 0 (by omega), code, if_pos hzeroes]
      exact Bool.noConfusion
    have htrailing : countTrailingZeroes buffer start limit = zeroes value := by
      apply countTrailingZeroes_of_one (by decide) buffer (by omega)
      · intro i hge hlt'
        rw [show i = start + (i - start) by omega, hcode _ (by omega), code, if_pos (by omega)]
      · rw [hcode _ (by omega), code, if_neg (by omega), if_pos (by omega), Nat.sub_self]
        rw [Nat.testBit_zero, decide_eq_true (by omega)]
    have hlength : ((getBits buffer (start + zeroes value) (zeroes value + 1) >>> 1) +
        (1#64 <<< zeroes value)).toNat = value.toNat.size := by
      have hpow : 2 ^ zeroes value < 2 ^ 64 := Nat.pow_lt_pow_right (by decide) hlt
      have hlow : 2 ^ zeroes value ≤ value.toNat.size := Nat.lt_size.mp (by
        rw [zeroes]
        omega)
      have hhigh : value.toNat.size < 2 ^ (zeroes value + 1) := Nat.size_le.mp (by
        rw [zeroes]
        omega)
      rw [BitVec.toNat_add, BitVec.toNat_ushiftRight, BitVec.toNat_shiftLeft,
        toNat_getBits buffer (m := 2 * value.toNat.size + 1) (by omega) (by
          intro i hi
          rw [Nat.add_assoc, hcode _ (by omega), code, if_neg (by omega), if_pos (by omega),
            Nat.add_sub_cancel_left]),
        Nat.shiftRight_eq_div_pow, Nat.shiftLeft_eq, show (1#64).toNat = 1 from rfl, Nat.one_mul,
        Nat.mod_eq_of_lt hpow]
      rw [Nat.pow_succ] at hhigh ⊢
      -- The highest bit of the number is the one that the mask adds.
      generalize 2 ^ zeroes value = high at *
      have hmod : (2 * value.toNat.size + 1) % (high * 2) = 2 * value.toNat.size + 1 - high * 2 := by
        rw [Nat.mod_eq_sub_mod (by omega), Nat.mod_eq_of_lt (by omega)]
      rw [hmod]
      omega
    have hbits : (getBits buffer (start + zeroes value + (zeroes value + 1))
        (value.toNat.size - 1)).toNat = value.toNat % 2 ^ (value.toNat.size - 1) := by
      apply toNat_getBits buffer (by omega)
      intro i hi
      rw [Nat.add_assoc, Nat.add_assoc, hcode _ (by omega), code, if_neg (by omega),
        if_neg (by omega), ← Nat.add_assoc, Nat.add_sub_cancel_left]
      rfl
    have hvalue : t.ofU64 (getBits buffer (start + zeroes value + (zeroes value + 1))
        (value.toNat.size - 1)) + t.ofU64 (1#64 <<< (value.toNat.size - 1)) = value := by
      have hpow : 2 ^ (value.toNat.size - 1) < 2 ^ 64 := Nat.pow_lt_pow_right (by decide) (by omega)
      have hlow : 2 ^ (value.toNat.size - 1) ≤ value.toNat := Nat.lt_size.mp (by omega)
      have hhigh : value.toNat < 2 ^ (value.toNat.size - 1 + 1) := Nat.size_le.mp (by omega)
      have hmax := ValueType.toNat_lt value
      rw [ValueType.ofU64, ValueType.ofU64, ← BitVec.setWidth_add _ _ t.bits_le]
      apply ValueType.ofU64_eq
      rw [BitVec.toNat_add, hbits, BitVec.toNat_shiftLeft, Nat.shiftLeft_eq,
        show (1#64).toNat = 1 from rfl, Nat.one_mul, Nat.mod_eq_of_lt hpow]
      rw [Nat.pow_succ] at hhigh
      generalize 2 ^ (value.toNat.size - 1) = high at *
      rw [Nat.mod_eq_sub_mod hlow, Nat.mod_eq_of_lt (by omega : value.toNat - high < high),
        Nat.sub_add_cancel hlow, Nat.mod_eq_of_lt hmax]
    have hpred : ((getBits buffer (start + zeroes value) (zeroes value + 1) >>> 1) +
        (1#64 <<< zeroes value) - 1).toNat = value.toNat.size - 1 := by
      rw [BitVec.toNat_sub_of_le, hlength]
      · rfl
      · rw [BitVec.le_def, hlength]
        exact hlen
    rw [decodeEliasDeltaLength, decodeEliasDelta, if_neg hbit, if_neg hbit]
    dsimp only
    rw [htrailing, hpred, hvalue, hlength]
    exact ⟨rfl, rfl⟩

theorem codes {value : BitVec t.bits} (h : Good t value) (limit : ℕ) :
    (codec t limit).Codes bit value (code (value + 1)) := by
  obtain ⟨hnat, hpos⟩ := h.toNat_succ
  have hnonneg : 0 ≤ t.num (value + 1) := by omega
  have hlen := getEliasDeltaValueLength_eq hnonneg hpos
  constructor
  · intro buffer idx
    change (encodeEliasDelta t buffer (value + 1) idx).2 = getEliasDeltaValueLength t (value + 1)
    rw [(encodeEliasDelta_eq hnonneg hpos buffer idx).2, hlen]
  · intro buffer idx
    change bit (encodeEliasDelta t buffer (value + 1) idx).1 =
      written (bit buffer) idx (getEliasDeltaValueLength t (value + 1)) (code (value + 1))
    rw [(encodeEliasDelta_eq hnonneg hpos buffer idx).1, hlen]
  · intro buffer idx hfits hcode
    change idx + getEliasDeltaValueLength t (value + 1) ≤ limit at hfits
    change ∀ i < getEliasDeltaValueLength t (value + 1), bit buffer (idx + i) = _ at hcode
    rw [hlen] at hfits hcode
    obtain ⟨hlength, hdecode⟩ := decodeEliasDelta_eq hpos hfits hcode
    change decodeEliasDeltaLength buffer idx limit = getEliasDeltaValueLength t (value + 1) ∧
      ((decodeEliasDelta t buffer idx limit).1 - 1, (decodeEliasDelta t buffer idx limit).2) =
        (value, getEliasDeltaValueLength t (value + 1))
    rw [hlength, hdecode, hlen, BitVec.add_sub_cancel]
    exact ⟨rfl, rfl⟩

/-- A value that the codec cannot add one to is written as 0. -/
theorem good_of_roundTrips {buffer : Cells 64} {value : BitVec t.bits} {idx limit : ℕ}
    (h : (codec t limit).RoundTrips bit buffer value idx) : Good t value := by
  by_cases hone : t.num (value + 1) > 1
  · have hnonneg : 0 ≤ t.num (value + 1) := by omega
    have hnat := ValueType.num_eq_toNat hnonneg
    have hlt := value.isLt
    have hsucc : (value + 1).toNat = (value.toNat + 1) % 2 ^ t.bits := by
      rw [BitVec.toNat_add, show (1 : BitVec t.bits).toNat = 1 from ValueType.toNat_small (by decide)]
    rcases Nat.lt_or_ge (value.toNat + 1) (2 ^ t.bits) with hin | hwrap
    · rw [Nat.mod_eq_of_lt hin] at hsucc
      have hnum := ValueType.num_of_le hnonneg (show value.toNat ≤ (value + 1).toNat by omega)
      exact ⟨by omega, by omega⟩
    · rw [show value.toNat + 1 = 2 ^ t.bits by omega, Nat.mod_self] at hsucc
      omega
  · have hwritten : encodeEliasDelta t buffer (value + 1) idx = (setBits buffer idx 1 1, 1) :=
      if_neg hone
    have hbit : testBit (setBits buffer idx 1 1) idx = true := by
      rw [testBit_eq, bit_setBits (by decide) _ _ _ (by decide), ← Nat.add_zero idx,
        written_of_mem Nat.one_pos]
      rfl
    have hdecode : ((decodeEliasDelta t (encodeEliasDelta t buffer (value + 1) idx).1 idx limit).1 - 1,
        (decodeEliasDelta t (encodeEliasDelta t buffer (value + 1) idx).1 idx limit).2) =
      (value, getEliasDeltaValueLength t (value + 1)) := h.decode
    rw [hwritten, decodeEliasDelta, if_pos hbit] at hdecode
    have hvalue : value = 0 := by
      rw [← (Prod.mk.inj hdecode).1]
      exact BitVec.sub_self 1
    have hzero : t.num (0 : BitVec t.bits) = 0 := by
      rw [ValueType.num_eq_toNat ValueType.num_zero,
        show (0 : BitVec t.bits).toNat = 0 from BitVec.toNat_zero]
      rfl
    have hnum : t.num (1 : BitVec t.bits) = 1 := by
      have hnat : (1 : BitVec t.bits).toNat = 1 := ValueType.toNat_small (by decide)
      rw [ValueType.num_eq_toNat (ValueType.num_nonneg (by rw [hnat]; decide)), hnat]
      rfl
    have hsucc : (0 : BitVec t.bits) + 1 = 1 := BitVec.zero_add 1
    rw [hvalue, Good, hsucc, hzero, hnum]
    exact ⟨Int.le_refl 0, rfl⟩

theorem readsBack (limit : ℕ) : (codec t limit).ReadsBack bit (Good t) :=
  Codec.ReadsBack.of_codes (fun value => code (value + 1)) (fun _ h => codes h limit)
    fun _ _ _ => good_of_roundTrips

end EliasDeltaCodec

namespace I64Codec

variable {t : ValueType}

def header (value : BitVec t.bits) : ℕ :=
  if t.num value < 64 then 4 * value.toNat + 1 else 4 * value.toNat.size + 3

def code (value : BitVec t.bits) (i : ℕ) : Bool :=
  if value = 0 then false
  else if i < 8 then (header value).testBit i
  else value.getLsbD (i - 8)

theorem num_zero_lt : t.num 0 < 64 := by
  have hnat := ValueType.num_eq_toNat (ValueType.num_zero (t := t))
  rw [hnat, show (0 : BitVec t.bits).toNat = 0 from BitVec.toNat_zero]
  decide

theorem ne_zero_of_long {value : BitVec t.bits} (h : ¬t.num value < 64) : value ≠ 0 := by
  rintro rfl
  exact h num_zero_lt

theorem log2_u64 {value : BitVec t.bits} (h : 0 ≤ t.num value) :
    log2 (t.u64 value) = value.toNat.size := by
  rw [log2_eq, ValueType.toNat_u64 h]

theorem getI64ValueLength_long {value : BitVec t.bits} (h : ¬t.num value < 64) :
    getI64ValueLength t value = 8 + value.toNat.size := by
  rw [getI64ValueLength, if_neg (ne_zero_of_long h), if_neg h, log2_u64 (by omega)]

theorem size_le (value : BitVec t.bits) : value.toNat.size ≤ 64 :=
  Nat.size_le.mpr (ValueType.toNat_lt value)

/-- What is written of a value that is not negative. -/
theorem encodeI64_eq {value : BitVec t.bits} (h : 0 ≤ t.num value) (buffer : Cells 64) (start : ℕ) :
    bit (encodeI64 t buffer value start).1 =
        written (bit buffer) start (getI64ValueLength t value) (code value) ∧
      (encodeI64 t buffer value start).2 = getI64ValueLength t value := by
  have hnat := ValueType.num_eq_toNat h
  by_cases hzero : value = 0
  · rw [encodeI64, if_pos hzero, getI64ValueLength, if_pos hzero, bit_clearBit]
    refine ⟨written_congr fun i _ => ?_, rfl⟩
    rw [code, if_pos hzero]
  by_cases hshort : t.num value < 64
  · rw [encodeI64, if_neg hzero, if_pos hshort, getI64ValueLength, if_neg hzero, if_pos hshort]
    dsimp only
    rw [bit_setBits (by decide) _ _ _ (by decide)]
    refine ⟨written_congr fun i hi => ?_, rfl⟩
    rw [code, if_neg hzero, if_pos hi, header, if_pos hshort, BitVec.getLsbD]
    congr 1
    rw [Nat.mul_comm 4]
    exact ValueType.toNat_u64_shift (c := 1) (by omega) rfl
  · have hsize := size_le value
    rw [encodeI64, if_neg hzero, if_neg hshort, getI64ValueLength_long hshort]
    dsimp only
    rw [log2_u64 h, bit_setBits (by decide) _ _ _ hsize, bit_setBits (by decide) _ _ _ (by decide)]
    refine ⟨?_, rfl⟩
    have hhead : ∀ i < 8, (t.u64 ((BitVec.ofNat t.bits value.toNat.size <<< 2) + 3)).getLsbD i =
        code value i := by
      intro i hi
      rw [code, if_neg hzero, if_pos hi, header, if_neg hshort, BitVec.getLsbD]
      congr 1
      rw [Nat.mul_comm 4]
      exact ValueType.toNat_u64_shift (c := 3) (by omega) (ValueType.toNat_small (by omega))
    have hbody : (t.u64 value).getLsbD = fun i => code value (8 + i) := by
      funext i
      rw [code, if_neg hzero, if_neg (by omega), Nat.add_sub_cancel_left, BitVec.getLsbD,
        ValueType.toNat_u64 h]
      rfl
    rw [written_congr hhead, hbody, written_written]

theorem header_lt {value : BitVec t.bits} (h : 0 ≤ t.num value) (hlt : value.toNat < 2 ^ 63) :
    header value < 2 ^ 8 := by
  have hnat := ValueType.num_eq_toNat h
  have hsize : value.toNat.size ≤ 63 := Nat.size_le.mpr hlt
  rw [header]
  split_ifs <;> omega

/-- A header is read by its lowest two bits and the number above them. -/
theorem read_header (buffer : Cells 64) (start : ℕ) {n : ℕ} (hn : n < 2 ^ 8)
    (h : ∀ i < 8, bit buffer (start + i) = n.testBit i) :
    getBits buffer start 8 = BitVec.ofNat 64 n ∧
      (getBits buffer start 8 &&& 0x1 = 0 ↔ n % 2 = 0) ∧
      (getBits buffer start 8 &&& 0x2 = 0 ↔ n / 2 % 2 = 0) ∧
      (getBits buffer start 8 >>> 2).toNat = n / 4 := by
  have hnat : (BitVec.ofNat 64 n).toNat = n := by
    rw [BitVec.toNat_ofNat]
    omega
  have heq : getBits buffer start 8 = BitVec.ofNat 64 n := by
    apply getBits_eq buffer (by decide) (by rw [hnat]; exact hn)
    intro i hi
    rw [h i hi, BitVec.getLsbD, hnat]
  rw [heq]
  refine ⟨rfl, ?_, ?_, ?_⟩
  · rw [show (0x1 : BitVec 64) = BitVec.twoPow 64 0 by decide,
      and_twoPow_eq_zero_iff _ (by decide), BitVec.getLsbD, hnat,
      Nat.testBit_eq_decide_div_mod_eq, decide_eq_false_iff_not]
    omega
  · rw [show (0x2 : BitVec 64) = BitVec.twoPow 64 1 by decide,
      and_twoPow_eq_zero_iff _ (by decide), BitVec.getLsbD, hnat,
      Nat.testBit_eq_decide_div_mod_eq, decide_eq_false_iff_not]
    omega
  · rw [BitVec.toNat_ushiftRight, hnat, Nat.shiftRight_eq_div_pow]

theorem codes {value : BitVec t.bits} (h : 0 ≤ t.num value) (hlt : value.toNat < 2 ^ 63) :
    (codec t).Codes bit value (code value) where
  encode_length buffer idx := (encodeI64_eq h buffer idx).2
  writes buffer idx := (encodeI64_eq h buffer idx).1
  reads buffer idx _ hcode := by
    change ∀ i < getI64ValueLength t value, bit buffer (idx + i) = code value i at hcode
    change getI64ValueLengthAt buffer idx = getI64ValueLength t value ∧
      decodeI64 t buffer idx = (value, getI64ValueLength t value)
    have hnat := ValueType.num_eq_toNat h
    by_cases hzero : value = 0
    · have hlen : getI64ValueLength t value = 1 := if_pos hzero
      have hhead : getBits buffer idx 8 &&& 0x1 = 0 := by
        rw [show (0x1 : BitVec 64) = BitVec.twoPow 64 0 by decide,
          and_twoPow_eq_zero_iff _ (by decide), getLsbD_getBits (by decide) buffer (by decide),
          hcode 0 (by omega), code, if_pos hzero, Bool.and_false]
      rw [getI64ValueLengthAt, decodeI64, hlen]
      dsimp only
      rw [if_pos hhead, if_pos hhead, hzero]
      exact ⟨rfl, rfl⟩
    by_cases hshort : t.num value < 64
    · have hlen : getI64ValueLength t value = 8 := by
        rw [getI64ValueLength, if_neg hzero, if_pos hshort]
      rw [hlen] at hcode ⊢
      obtain ⟨-, hone, htwo, hvalue⟩ := read_header buffer idx (header_lt h hlt) (by
        intro i hi
        rw [hcode i hi, code, if_neg hzero, if_pos hi])
      rw [header, if_pos hshort] at hone htwo hvalue
      have hset : ¬getBits buffer idx 8 &&& 0x1 = 0 := by
        rw [hone]
        omega
      have hclear : getBits buffer idx 8 &&& 0x2 = 0 := htwo.mpr (by omega)
      have hnum : (getBits buffer idx 8 >>> 2).toNat = value.toNat := hvalue.trans (by omega)
      rw [getI64ValueLengthAt, decodeI64]
      dsimp only
      rw [if_neg hset, if_pos hclear, if_neg hset, if_pos hclear,
        ValueType.ofU64_eq hnum]
      exact ⟨rfl, rfl⟩
    · have hsize := size_le value
      rw [getI64ValueLength_long hshort] at hcode ⊢
      obtain ⟨-, hone, htwo, hvalue⟩ := read_header buffer idx (header_lt h hlt) (by
        intro i hi
        rw [hcode i (by omega), code, if_neg hzero, if_pos hi])
      rw [header, if_neg hshort] at hone htwo hvalue
      have hbits : getBits buffer (idx + 8) value.toNat.size = t.u64 value := by
        apply getBits_eq buffer hsize
        · rw [ValueType.toNat_u64 h]
          exact Nat.lt_size_self _
        · intro i hi
          rw [Nat.add_assoc, hcode (8 + i) (by omega), code, if_neg hzero, if_neg (by omega),
            Nat.add_sub_cancel_left, BitVec.getLsbD, BitVec.getLsbD, ValueType.toNat_u64 h]
      have hset : ¬getBits buffer idx 8 &&& 0x1 = 0 := by
        rw [hone]
        omega
      have hset' : ¬getBits buffer idx 8 &&& 0x2 = 0 := by
        rw [htwo]
        omega
      rw [getI64ValueLengthAt, decodeI64]
      dsimp only
      rw [if_neg hset, if_neg hset', if_neg hset, if_neg hset', hvalue,
        show (4 * value.toNat.size + 3) / 4 = value.toNat.size by omega, hbits,
        ValueType.ofU64_eq (ValueType.toNat_u64 h), Nat.add_comm 8]
      exact ⟨rfl, rfl⟩

/-- What is read as a value of eight bits. -/
theorem nonneg_of_decode {buffer : Cells 64} {value : BitVec t.bits} {idx : ℕ}
    (h : decodeI64 t buffer idx = (value, 8)) : 0 ≤ t.num value := by
  have hhead := toNat_getBits_lt buffer idx (by decide : 8 ≤ 64)
  have hempty := toNat_getBits_lt buffer (idx + 8) (by decide : 0 ≤ 64)
  rw [decodeI64] at h
  dsimp only at h
  split_ifs at h with hone htwo
  · obtain ⟨-, hlen⟩ := Prod.mk.inj h
    omega
  · obtain ⟨hvalue, -⟩ := Prod.mk.inj h
    rw [← hvalue]
    apply ValueType.num_ofU64
    rw [BitVec.toNat_ushiftRight, Nat.shiftRight_eq_div_pow]
    omega
  · obtain ⟨hvalue, hlen⟩ := Prod.mk.inj h
    rw [show (getBits buffer idx 8 >>> 2).toNat = 0 by omega] at hvalue
    rw [← hvalue]
    apply ValueType.num_ofU64
    omega

theorem nonneg_of_roundTrips {buffer : Cells 64} {value : BitVec t.bits} {idx : ℕ}
    (h : (codec t).RoundTrips bit buffer value idx) : 0 ≤ t.num value := by
  by_contra hneg
  have hlen : getI64ValueLength t value = 8 := by
    rw [getI64ValueLength, if_neg ?_, if_pos (by omega)]
    rintro rfl
    exact hneg ValueType.num_zero
  have hdecode : decodeI64 t (encodeI64 t buffer value idx).1 idx =
    (value, getI64ValueLength t value) := h.decode
  rw [hlen] at hdecode
  exact hneg (nonneg_of_decode hdecode)

/-- The header of a length of 64 is cut to that of a length of 0. -/
theorem lt_of_roundTrips {buffer : Cells 64} {value : BitVec t.bits} {idx : ℕ}
    (h : (codec t).RoundTrips bit buffer value idx) : value.toNat < 2 ^ 63 := by
  have hnonneg := nonneg_of_roundTrips h
  have hnat := ValueType.num_eq_toNat hnonneg
  by_contra hlarge
  have hsize : value.toNat.size = 64 := by
    have hle := size_le value
    rw [← Nat.size_le] at hlarge
    omega
  have hlong : ¬t.num value < 64 := by omega
  have hlen := getI64ValueLength_long hlong
  have hat : getI64ValueLengthAt (encodeI64 t buffer value idx).1 idx =
    getI64ValueLength t value := h.lengthAt
  obtain ⟨-, hone, htwo, hvalue⟩ := read_header (encodeI64 t buffer value idx).1 idx
    (by decide : 3 < 2 ^ 8) (by
      intro i hi
      rw [(encodeI64_eq hnonneg buffer idx).1, written_of_mem (by omega), code,
        if_neg (ne_zero_of_long hlong), if_pos hi, header, if_neg hlong, hsize]
      revert hi i
      decide)
  rw [getI64ValueLengthAt, if_neg (by rw [hone]; decide), if_neg (by rw [htwo]; decide), hvalue,
    hlen] at hat
  omega

theorem readsBack :
    (codec t).ReadsBack bit fun value => 0 ≤ t.num value ∧ value.toNat < 2 ^ 63 :=
  Codec.ReadsBack.of_codes code (fun _ h => codes h.1 h.2) fun _ _ _ h =>
    ⟨nonneg_of_roundTrips h, lt_of_roundTrips h⟩

end I64Codec

namespace ExintCodec

open ByteLoops

variable {t : ValueType}

def code (value : BitVec t.bits) : ℕ → BitVec 8 :=
  headed (BitVec.ofNat 8 (byteLen value.toNat)) (byteAt value.toNat)

theorem toNat_header (value : BitVec t.bits) :
    (BitVec.ofNat 8 (byteLen value.toNat)).toNat = byteLen value.toNat := by
  have hle := ValueType.byteLen_le value
  rw [BitVec.toNat_ofNat]
  omega

theorem getExintValueLength_eq {value : BitVec t.bits} (h : 0 ≤ t.num value) :
    getExintValueLength t value = 1 + byteLen value.toNat :=
  lengthLoop_eq h 1

theorem encodeExint_eq {value : BitVec t.bits} (h : 0 ≤ t.num value) (buffer : Cells 8)
    (start : ℕ) :
    encodeExint t buffer value start =
      (written buffer start (1 + byteLen value.toNat) (code value), 1 + byteLen value.toNat) := by
  have hheader : (0 : BitVec 8) + BitVec.ofNat 8 (byteLen value.toNat) =
      BitVec.ofNat 8 (byteLen value.toNat) := BitVec.zero_add _
  rw [encodeExint, encodeLoop_eq h (Nat.lt_succ_self start), Function.update_self, Function.update_self,
    update_written_update, hheader, update_written, toNat_header, Nat.add_comm 1]
  rfl

theorem codes {value : BitVec t.bits} (h : 0 ≤ t.num value) :
    (codec t).Codes (fun buffer => buffer) value (code value) where
  encode_length buffer idx := by
    change (encodeExint t buffer value idx).2 = getExintValueLength t value
    rw [encodeExint_eq h, getExintValueLength_eq h]
  writes buffer idx := by
    change (encodeExint t buffer value idx).1 =
      written buffer idx (getExintValueLength t value) (code value)
    rw [encodeExint_eq h, getExintValueLength_eq h]
  reads buffer idx _ hcode := by
    change ∀ i < getExintValueLength t value, buffer (idx + i) = code value i at hcode
    change (buffer idx).toNat + 1 = getExintValueLength t value ∧
      decodeExint t buffer idx = (value, getExintValueLength t value)
    rw [getExintValueLength_eq h] at hcode ⊢
    have hhead : (buffer idx).toNat = byteLen value.toNat := by
      rw [show buffer idx = _ from hcode 0 (by omega), code, headed, toNat_header]
    have hbody : decodeLoop t buffer (byteLen value.toNat) (idx + 1) 0 0 = value := by
      apply decodeLoop_eq
      intro i hi
      rw [Nat.add_assoc, hcode (1 + i) (by omega), code, headed_body]
    rw [decodeExint, hhead, hbody, Nat.add_comm 1]
    exact ⟨rfl, rfl⟩

/-- Of a negative value nothing is written. -/
theorem nonneg_of_roundTrips {buffer : Cells 8} {value : BitVec t.bits} {idx : ℕ}
    (h : (codec t).RoundTrips (fun buffer => buffer) buffer value idx) : 0 ≤ t.num value := by
  by_contra hneg
  have hdecode : decodeExint t (encodeExint t buffer value idx).1 idx =
    (value, getExintValueLength t value) := h.decode
  have hempty : (encodeExint t buffer value idx).1 idx = 0 := by
    rw [encodeExint, encodeLoop_of_nonpos (by omega)]
    exact Function.update_self idx 0 buffer
  have hzero : value = 0 := by
    rw [decodeExint, hempty] at hdecode
    exact (congrArg Prod.fst hdecode).symm
  apply hneg
  rw [hzero]
  exact ValueType.num_zero

theorem readsBack : (codec t).ReadsBack (fun buffer => buffer) fun value => 0 ≤ t.num value :=
  Codec.ReadsBack.of_codes code (fun _ => codes) fun _ _ _ => nonneg_of_roundTrips

end ExintCodec

namespace I7Codec

open ByteLoops

variable {t : ValueType}

def code (value : BitVec t.bits) : ℕ → BitVec 8 :=
  if t.num value < 128 then fun _ => value.setWidth 8
  else headed (BitVec.ofNat 8 (byteLen value.toNat) + 128) (byteAt value.toNat)

theorem toNat_header (value : BitVec t.bits) :
    (BitVec.ofNat 8 (byteLen value.toNat) + 128).toNat = byteLen value.toNat + 128 := by
  have hle := ValueType.byteLen_le value
  have hoffset : (128 : BitVec 8).toNat = 128 := rfl
  rw [BitVec.toNat_add, BitVec.toNat_ofNat, hoffset]
  omega

theorem getI7ValueLength_long {value : BitVec t.bits} (h : ¬t.num value < 128) :
    getI7ValueLength t value = 1 + byteLen value.toNat := by
  rw [getI7ValueLength, if_neg h, lengthLoop_eq (by omega)]

theorem encodeI7_eq (buffer : Cells 8) (value : BitVec t.bits) (start : ℕ) :
    encodeI7 t buffer value start =
      (written buffer start (getI7ValueLength t value) (code value),
        getI7ValueLength t value) := by
  by_cases h : t.num value < 128
  · rw [encodeI7, if_pos h, getI7ValueLength, if_pos h, code, if_pos h, update_eq_written]
  · have hheader : (0 : BitVec 8) + BitVec.ofNat 8 (byteLen value.toNat) =
        BitVec.ofNat 8 (byteLen value.toNat) := BitVec.zero_add _
    rw [encodeI7, if_neg h, getI7ValueLength_long h, code, if_neg h]
    dsimp only
    rw [encodeLoop_eq (by omega) (Nat.lt_succ_self start), Function.update_self,
      Function.update_self, update_written_update, hheader, Function.update_idem, update_written,
      ExintCodec.toNat_header, Nat.add_comm 1]

theorem codes {value : BitVec t.bits} (h : 0 ≤ t.num value) :
    (codec t).Codes (fun buffer => buffer) value (code value) where
  encode_length buffer idx := congrArg Prod.snd (encodeI7_eq buffer value idx)
  writes buffer idx := congrArg Prod.fst (encodeI7_eq buffer value idx)
  reads buffer idx _ hcode := by
    change ∀ i < getI7ValueLength t value, buffer (idx + i) = code value i at hcode
    change (if (buffer idx).toNat < 128 then 1 else (buffer idx).toNat - 128 + 1) =
      getI7ValueLength t value ∧ decodeI7 t buffer idx = (value, getI7ValueLength t value)
    by_cases hshort : t.num value < 128
    · have hnat := ValueType.num_eq_toNat h
      rw [getI7ValueLength, if_pos hshort, code, if_pos hshort] at hcode
      have hhead : (buffer idx).toNat = value.toNat := by
        rw [show buffer idx = _ from hcode 0 Nat.one_pos, BitVec.toNat_setWidth]
        omega
      have hvalue : (buffer idx).setWidth t.bits = value := by
        apply BitVec.eq_of_toNat_eq
        have hwide : 8 ≤ t.bits := le_trans (by decide) t.le_bits
        rw [BitVec.toNat_setWidth_of_le hwide, hhead]
      rw [if_pos (by omega), decodeI7, if_pos (by omega), getI7ValueLength, if_pos hshort, hvalue]
      exact ⟨rfl, rfl⟩
    · rw [getI7ValueLength_long hshort, code, if_neg hshort] at hcode
      have hhead : (buffer idx).toNat = byteLen value.toNat + 128 := by
        rw [show buffer idx = _ from hcode 0 (by omega), headed, toNat_header]
      have hbody : decodeLoop t buffer (byteLen value.toNat) (idx + 1) 0 0 = value := by
        apply decodeLoop_eq
        intro i hi
        rw [Nat.add_assoc, hcode (1 + i) (by omega), headed_body]
      rw [if_neg (by omega), decodeI7, if_neg (by omega), getI7ValueLength_long hshort, hhead]
      dsimp only
      rw [Nat.add_sub_cancel, hbody, Nat.add_comm 1]
      exact ⟨rfl, rfl⟩

/-- Of a negative value the lowest byte is written. -/
theorem nonneg_of_roundTrips {buffer : Cells 8} {value : BitVec t.bits} {idx : ℕ}
    (h : (codec t).RoundTrips (fun buffer => buffer) buffer value idx) : 0 ≤ t.num value := by
  by_contra hneg
  have hwritten : encodeI7 t buffer value idx =
      (Function.update buffer idx (value.setWidth 8), 1) := by
    rw [encodeI7, if_pos (by omega)]
  have hlength : getI7ValueLength t value = 1 := by
    rw [getI7ValueLength, if_pos (by omega)]
  have hdecode : decodeI7 t (encodeI7 t buffer value idx).1 idx =
    (value, getI7ValueLength t value) := h.decode
  apply hneg
  rw [hwritten, hlength, decodeI7] at hdecode
  simp only [Function.update_self] at hdecode
  split_ifs at hdecode with hbyte
  · rw [← (Prod.mk.inj hdecode).1]
    apply ValueType.num_nonneg
    have hmod := Nat.mod_le (value.setWidth 8).toNat (2 ^ t.bits)
    rw [BitVec.toNat_setWidth t.bits]
    omega
  · -- A code of one byte that announces more has no bytes.
    obtain ⟨hvalue, hlen⟩ := Prod.mk.inj hdecode
    rw [show (value.setWidth 8).toNat - 128 = 0 by omega, decodeLoop] at hvalue
    rw [← hvalue]
    exact ValueType.num_zero

theorem readsBack : (codec t).ReadsBack (fun buffer => buffer) fun value => 0 ≤ t.num value :=
  Codec.ReadsBack.of_codes code (fun _ => codes) fun _ _ _ => nonneg_of_roundTrips

end I7Codec

namespace PackedCodecs

open Lib.Codec

/-- Which values the codecs read back, and with them their lists. -/
theorem readsBack_all (t : ValueType) (limit : ℕ) :
    (EliasDeltaCodec.codec t limit).ReadsBack bit
        (fun value => 0 ≤ t.num value ∧ t.num (value + 1) = t.num value + 1) ∧
      (I64Codec.codec t).ReadsBack bit (fun value => 0 ≤ t.num value ∧ value.toNat < 2 ^ 63) ∧
      (ExintCodec.codec t).ReadsBack (fun buffer => buffer) (fun value => 0 ≤ t.num value) ∧
      (I7Codec.codec t).ReadsBack (fun buffer => buffer) (fun value => 0 ≤ t.num value) :=
  ⟨EliasDeltaCodec.readsBack limit, I64Codec.readsBack, ExintCodec.readsBack, I7Codec.readsBack⟩

/-- The largest value of the Elias codec, which is written as 0, and the value of 64 bits of the
I64 codec, whose length does not fit its header. -/
theorem largest_values_lost :
    ¬(EliasDeltaCodec.codec .uint64 128).RoundTrips bit (fun _ => 0) (BitVec.allOnes 64) 0 ∧
      ¬(I64Codec.codec .uint64).RoundTrips bit (fun _ => 0) (BitVec.intMin 64) 0 := by
  constructor
  · intro h
    exact absurd h.encode_length (by decide +kernel)
  · intro h
    exact absurd h.lengthAt (by decide +kernel)

end PackedCodecs

end Memoria

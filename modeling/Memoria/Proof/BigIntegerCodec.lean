import Memoria.Proof.ByteCodecs
import Mathlib.Algebra.Order.Ring.Int

/-!
# The codec of big integers

The multiprecision numbers are integers in limbs of 64 bits. Their code has one count byte up to 32
limbs and four from there on: a count of 256 does not fit the one byte, and the reader of the
length takes three of the four bytes in the other order.
-/

namespace Memoria

open Lib

def limbsValue (limbs : ℕ → BitVec 64) : ℕ → ℕ
  | 0 => 0
  | n + 1 => limbsValue limbs n + (limbs n).toNat * 256 ^ (n * 8)

theorem limbsValue_lt (limbs : ℕ → BitVec 64) (n : ℕ) : limbsValue limbs n < 256 ^ (n * 8) := by
  induction n with
  | zero => exact Nat.one_pos
  | succ n ih =>
      have hlimb : (limbs n).toNat + 1 ≤ 256 ^ 8 := (limbs n).isLt
      calc limbsValue limbs n + (limbs n).toNat * 256 ^ (n * 8)
          < 256 ^ (n * 8) + (limbs n).toNat * 256 ^ (n * 8) := Nat.add_lt_add_right ih _
        _ = ((limbs n).toNat + 1) * 256 ^ (n * 8) := by rw [Nat.add_one_mul, Nat.add_comm]
        _ ≤ 256 ^ 8 * 256 ^ (n * 8) := Nat.mul_le_mul_right _ hlimb
        _ = 256 ^ ((n + 1) * 8) := by rw [← Nat.pow_add, Nat.add_one_mul, Nat.add_comm]

/-- The bytes of a number with a digit above the others. -/
theorem byteLen_add_mul {low high n : ℕ} (hlow : low < 256 ^ n) (hhigh : 0 < high) :
    byteLen (low + high * 256 ^ n) = byteLen high + n := by
  apply Nat.le_antisymm
  · have hle : high + 1 ≤ 256 ^ byteLen high := byteLen_le_iff.mp (Nat.le_refl _)
    rw [byteLen_le_iff]
    calc low + high * 256 ^ n < 256 ^ n + high * 256 ^ n := Nat.add_lt_add_right hlow _
      _ = (high + 1) * 256 ^ n := by rw [Nat.add_one_mul, Nat.add_comm]
      _ ≤ 256 ^ byteLen high * 256 ^ n := Nat.mul_le_mul_right _ hle
      _ = 256 ^ (byteLen high + n) := by rw [Nat.pow_add]
  · obtain ⟨k, hk⟩ := Nat.exists_eq_add_of_lt (lt_byteLen_iff.mpr hhigh : 0 < byteLen high)
    rw [Nat.zero_add] at hk
    have hle : 256 ^ k ≤ high := lt_byteLen_iff.mp (by omega)
    rw [hk, Nat.add_right_comm, Nat.succ_le_iff, lt_byteLen_iff]
    calc 256 ^ (k + n) = 256 ^ k * 256 ^ n := by rw [Nat.pow_add]
      _ ≤ high * 256 ^ n := Nat.mul_le_mul_right _ hle
      _ ≤ low + high * 256 ^ n := Nat.le_add_left _ _

structure Multiprecision.Lawful {V : Type} (mp : Multiprecision V) (toInt : V → ℤ) : Prop where
  toInt_injective : Function.Injective toInt
  size_pos : ∀ v, 0 < mp.size v
  limbs : ∀ v, (toInt v).natAbs = limbsValue (mp.limbs v) (mp.size v)
  top_ne_zero : ∀ v, 1 < mp.size v → mp.limbs v (mp.size v - 1) ≠ 0
  sign : ∀ v, mp.sign v = (toInt v).sign
  ofInt : ∀ z, toInt (mp.ofInt z) = z
  exportBits : ∀ v buffer idx, toInt v ≠ 0 → mp.exportBits v buffer idx =
    (written buffer idx (byteLen (toInt v).natAbs) (byteAt (toInt v).natAbs),
      byteLen (toInt v).natAbs)
  importBits : ∀ v buffer idx len, (toInt (mp.importBits v buffer idx len)).natAbs =
    valueOf (fun i => buffer (idx + i)) len
  setSign : ∀ v negative, toInt (mp.setSign v negative) =
    if negative then -((toInt v).natAbs : ℤ) else (toInt v).natAbs

namespace BigIntegerCodec

open ValueCodec

variable {V : Type} {mp : Multiprecision V} {toInt : V → ℤ}

def quadCode (header : BitVec 8) (digits : ℕ) : ℕ → BitVec 8 :=
  headed header fun i => if i < 4 then byteAt (byteLen digits) i else byteAt digits (i - 4)

def code (z : ℤ) : ℕ → BitVec 8 :=
  if 0 ≤ z ∧ z.natAbs < 126 then fun _ => BitVec.ofNat 8 z.natAbs
  else if z < 0 ∧ z.natAbs < 127 then fun _ => BitVec.ofNat 8 (z.natAbs + 125)
  else if byteLen z.natAbs ≤ 256 then Int64Codec.longCode (if z < 0 then 253 else 252) z.natAbs
  else quadCode (if z < 0 then 255 else 254) z.natAbs

def codeLength (z : ℤ) : ℕ :=
  if 0 ≤ z ∧ z.natAbs < 126 then 1
  else if z < 0 ∧ z.natAbs < 127 then 1
  else if byteLen z.natAbs ≤ 256 then 2 + byteLen z.natAbs
  else 5 + byteLen z.natAbs

section Forms

variable {z : ℤ}

theorem code_nonneg (hz : 0 ≤ z) (hshort : z.natAbs < 126) :
    code z = (fun _ => BitVec.ofNat 8 z.natAbs) ∧ codeLength z = 1 :=
  ⟨if_pos ⟨hz, hshort⟩, if_pos ⟨hz, hshort⟩⟩

theorem code_neg (hz : z < 0) (hshort : z.natAbs < 127) :
    code z = (fun _ => BitVec.ofNat 8 (z.natAbs + 125)) ∧ codeLength z = 1 := by
  have hsign : ¬(0 ≤ z ∧ z.natAbs < 126) := by omega
  rw [code, codeLength, if_neg hsign, if_neg hsign, if_pos ⟨hz, hshort⟩, if_pos ⟨hz, hshort⟩]
  exact ⟨rfl, rfl⟩

def Long (z : ℤ) : Prop := ¬(0 ≤ z ∧ z.natAbs < 126) ∧ ¬(z < 0 ∧ z.natAbs < 127)

theorem code_long (hz : Long z) (hbytes : byteLen z.natAbs ≤ 256) :
    code z = Int64Codec.longCode (if z < 0 then 253 else 252) z.natAbs ∧
      codeLength z = 2 + byteLen z.natAbs := by
  rw [code, codeLength, if_neg hz.1, if_neg hz.1, if_neg hz.2, if_neg hz.2, if_pos hbytes,
    if_pos hbytes]
  exact ⟨rfl, rfl⟩

theorem code_quad (hz : Long z) (hbytes : ¬byteLen z.natAbs ≤ 256) :
    code z = quadCode (if z < 0 then 255 else 254) z.natAbs ∧
      codeLength z = 5 + byteLen z.natAbs := by
  rw [code, codeLength, if_neg hz.1, if_neg hz.1, if_neg hz.2, if_neg hz.2, if_neg hbytes,
    if_neg hbytes]
  exact ⟨rfl, rfl⟩

theorem long_of_large (h : 126 < z.natAbs) : Long z := by
  constructor <;> omega

end Forms

/-- The count bytes are written before the bytes, and after them the header. -/
theorem writeQuad_eq (buffer : Cells 8) (header : BitVec 8) (digits idx : ℕ) :
    written (Function.update (written buffer (idx + 5) (byteLen digits) (byteAt digits)) idx header)
        (idx + 1) 4 (fun c => BitVec.ofNat 8 (byteLen digits >>> (c <<< 3))) =
      written buffer idx (5 + byteLen digits) (quadCode header digits) := by
  have hfront : ∀ i < 5, headed header
      (fun c => BitVec.ofNat 8 (byteLen digits >>> (c <<< 3))) i = quadCode header digits i := by
    intro i hi
    cases i with
    | zero => rfl
    | succ i =>
        rw [headed, quadCode, headed, if_pos (by omega), byteAt, Nat.shiftRight_eq_div_pow,
          Nat.shiftLeft_eq, Nat.mul_comm i, Nat.pow_mul]
  have hbody : byteAt digits = fun i => quadCode header digits (5 + i) := by
    funext i
    rw [show 5 + i = 4 + i + 1 by omega, quadCode, headed, if_neg (by omega),
      Nat.add_sub_cancel_left]
  rw [written_update, written_congr hfront, hbody, written_front]

theorem toNat_shift_count {len : BitVec 64} {high : ℕ} (byte : BitVec 8) (hlen : len.toNat = 256 * high)
    (hhigh : high < 2 ^ 40) :
    ((len ||| byte.setWidth 64) <<< 8).toNat = 256 * (256 * high + byte.toNat) := by
  have hbyte := byte.isLt
  have hor : 256 * high ||| byte.toNat = 256 * high + byte.toNat :=
    (Nat.two_pow_add_eq_or_of_lt hbyte high).symm
  rw [BitVec.toNat_shiftLeft, BitVec.toNat_or, hlen, BitVec.toNat_setWidth_of_le (by decide), hor,
    Nat.shiftLeft_eq, Nat.mod_eq_of_lt (by omega), Nat.mul_comm]

/-- The reader of the length takes the lower three count bytes as the higher ones, from the lowest
on. -/
theorem lengthAt_quad {buffer : Cells 8} {idx : ℕ} (hhead : 254 ≤ (buffer idx).toNat) :
    lengthAt buffer idx = 2 ^ 24 * (buffer (idx + 1)).toNat + 2 ^ 16 * (buffer (idx + 2)).toNat +
      2 ^ 8 * (buffer (idx + 3)).toNat + 5 := by
  have hone := (buffer (idx + 1)).isLt
  have htwo := (buffer (idx + 2)).isLt
  have hfirst := (@toNat_shift_count 0 0) (buffer (idx + 1)) rfl (by decide)
  have hsecond := toNat_shift_count (buffer (idx + 2)) hfirst (by omega)
  have hthird := toNat_shift_count (buffer (idx + 3)) hsecond (by omega)
  rw [lengthAt, if_neg (by omega), if_neg (by omega)]
  dsimp only [List.range', List.foldl_cons, List.foldl_nil]
  rw [hthird]
  omega

theorem lengthAt_counts {buffer : Cells 8} {idx n : ℕ} (hhead : 254 ≤ (buffer idx).toNat)
    (h : ∀ i < 4, buffer (idx + 1 + i) = byteAt n i) :
    lengthAt buffer idx =
      2 ^ 24 * (n % 256) + 2 ^ 16 * (n / 256 % 256) + 2 ^ 8 * (n / 65536 % 256) + 5 := by
  have hone : (buffer (idx + 1)).toNat = n % 256 := by
    rw [show buffer (idx + 1) = _ from h 0 (by decide), byteAt, BitVec.toNat_ofNat, Nat.pow_zero,
      Nat.div_one]
  have htwo : (buffer (idx + 2)).toNat = n / 256 % 256 := by
    rw [show buffer (idx + 2) = _ from h 1 (by decide), byteAt, BitVec.toNat_ofNat, Nat.pow_one]
  have hthree : (buffer (idx + 3)).toNat = n / 65536 % 256 := by
    rw [show buffer (idx + 3) = _ from h 2 (by decide), byteAt, BitVec.toNat_ofNat]
    rfl
  rw [lengthAt_quad hhead, hone, htwo, hthree]

/-- `decode` takes all four, the lowest first. -/
theorem count_eq {buffer : Cells 8} {idx n : ℕ} (hn : n < 2 ^ 32)
    (h : ∀ i < 4, buffer (idx + 1 + i) = byteAt n i) :
    ((List.range 4).foldl (fun len c => len ||| ((buffer (idx + 1 + c)).setWidth 64 <<< (c <<< 3)))
      (0 : BitVec 64)).toNat = n := by
  have hloop : (List.range 4).foldl
      (fun len c => len ||| ((buffer (idx + 1 + c)).setWidth 64 <<< (c <<< 3))) (0 : BitVec 64) =
      deserializeLoop buffer 4 0 (idx + 1) 0 := rfl
  rw [hloop, toNat_deserializeLoop buffer 4 0 (idx + 1) (by decide) (by decide), valueOf_congr h,
    valueOf_byteAt, Nat.pow_zero, Nat.one_mul, Nat.mod_eq_of_lt (show n < 256 ^ 4 from hn)]
  exact Nat.zero_add n

/-- What is read of a code with four count bytes. -/
theorem readQuad_eq {buffer : Cells 8} {header : BitVec 8} {digits idx : ℕ}
    (h : ∀ i < 5 + byteLen digits, buffer (idx + i) = quadCode header digits i) :
    buffer idx = header ∧ (∀ i < 4, buffer (idx + 1 + i) = byteAt (byteLen digits) i) ∧
      ∀ i < byteLen digits, buffer (idx + 5 + i) = byteAt digits i := by
  refine ⟨h 0 (by omega), ?_, ?_⟩
  · intro i hi
    rw [Nat.add_assoc, h (1 + i) (by omega), quadCode, headed_body, if_pos hi]
  · intro i hi
    rw [Nat.add_assoc, h (5 + i) (by omega), show 5 + i = 1 + (4 + i) by omega, quadCode,
      headed_body, if_neg (by omega), Nat.add_sub_cancel_left]

/-- The numbers of bytes that the code can tell: up to 255, and from 257 on those that are the same
to both readers. -/
def Countable (n : ℕ) : Prop := n ≤ 255 ∨ ∃ b, 1 ≤ b ∧ b ≤ 255 ∧ n = 65792 * b

theorem countable_iff {n : ℕ} (hn : 256 < n) :
    2 ^ 24 * (n % 256) + 2 ^ 16 * (n / 256 % 256) + 2 ^ 8 * (n / 65536 % 256) = n ↔
      Countable n := by
  constructor
  · intro h
    exact .inr ⟨n / 256 % 256, by omega, by omega, by omega⟩
  · rintro (hle | ⟨b, hpos, hle, rfl⟩)
    · omega
    · have hzero : 65792 * b % 256 = 0 := by omega
      have hmiddle : 65792 * b / 256 = 257 * b := by omega
      have hmod : 257 * b % 256 = b := by omega
      have hhigh : 65792 * b / 65536 = b := by omega
      rw [hzero, hmiddle, hhigh, hmod, Nat.mod_eq_of_lt (by omega : b < 256)]
      omega

section Lawful

variable (h : mp.Lawful toInt)
include h

theorem negative_iff (v : V) : mp.sign v = -1 ↔ toInt v < 0 := by
  rw [h.sign, Int.sign_eq_neg_one_iff_neg]

theorem natAbs_of_size_one {v : V} (hsize : mp.size v = 1) :
    (toInt v).natAbs = (mp.limbs v 0).toNat := by
  rw [h.limbs, hsize, limbsValue, limbsValue]
  omega

/-- The bytes are counted from the highest limb. -/
theorem byteLength_eq {v : V} (hv : mp.limbs v (mp.size v - 1) ≠ 0) :
    byteLength (mp.limbs v) (mp.size v) = byteLen (toInt v).natAbs := by
  have hsize := h.size_pos v
  obtain ⟨n, hn⟩ := Nat.exists_eq_add_of_lt hsize
  rw [Nat.zero_add] at hn
  rw [hn, Nat.add_sub_cancel] at hv
  rw [byteLength, h.limbs, hn, limbsValue, Nat.add_sub_cancel, bytes_eq hv,
    byteLen_add_mul (limbsValue_lt _ n)]
  exact Nat.pos_of_ne_zero fun hz => hv (BitVec.eq_of_toNat_eq hz)

theorem byteLen_bounds (v : V) :
    byteLen (toInt v).natAbs ≤ mp.size v * 8 ∧
      (1 < mp.size v → (mp.size v - 1) * 8 < byteLen (toInt v).natAbs) := by
  have hlt := limbsValue_lt (mp.limbs v) (mp.size v)
  rw [← h.limbs] at hlt
  refine ⟨byteLen_le_iff.mpr hlt, fun hsize => ?_⟩
  have htop := h.top_ne_zero v hsize
  have hpos := bytes_pos htop
  rw [← byteLength_eq h htop, byteLength, bytes_eq htop]
  omega

/-- A number of one limb is small enough for a code of one byte, or it has some bytes. -/
theorem length_eq (v : V) : length mp v = codeLength (toInt v) := by
  obtain ⟨hhigh, hlow⟩ := byteLen_bounds h v
  have hneg := negative_iff h v
  by_cases hsize : mp.size v = 1
  · have habs := natAbs_of_size_one h hsize
    have hlong : 0 < (mp.limbs v 0).toNat →
        byteLength (mp.limbs v) 1 = byteLen (toInt v).natAbs := by
      intro hpos
      rw [← hsize]
      apply byteLength_eq h
      rw [hsize]
      exact Int64Codec.ne_zero_of_toNat hpos
    simp only [length, codeLength, hsize, hneg, if_true, habs] at *
    split_ifs <;> omega
  · have hpos := h.size_pos v
    have htop := h.top_ne_zero v (by omega)
    have hlarge : 126 < (toInt v).natAbs := by
      have hbytes : 8 < byteLen (toInt v).natAbs := by
        have := hlow (by omega)
        omega
      have hpow := lt_byteLen_iff.mp hbytes
      omega
    simp only [length, codeLength, if_neg hsize, maxLimbs, byteLength_eq h htop]
    split_ifs <;> omega

theorem encode_one_limb (buffer : Cells 8) {v : V} (hsize : mp.size v = 1) (idx : ℕ) :
    encode mp buffer v idx =
      (written buffer idx (codeLength (toInt v)) (code (toInt v)), codeLength (toInt v)) := by
  have habs := natAbs_of_size_one h hsize
  have hbytes := bytes_le (mp.limbs v 0)
  rw [← habs] at hbytes
  have hlong : 126 ≤ (toInt v).natAbs → ∀ header : BitVec 8,
      serialize (· >>> ·) (Function.update buffer idx header) (mp.limbs v 0) (idx + 2) =
        (written (Function.update buffer idx header) (idx + 2) (byteLen (toInt v).natAbs)
          (byteAt (toInt v).natAbs), byteLen (toInt v).natAbs) := by
    intro hpos header
    rw [habs]
    exact serialize_eq (Int64Codec.ne_zero_of_toNat (by omega))
      (fun c _ => ushiftRight_byte (mp.limbs v 0) c) _ _
  rw [encode]
  dsimp only
  rw [if_pos hsize, ← habs]
  simp only [negative_iff h]
  by_cases hneg : toInt v < 0
  · rw [if_neg (not_not.mpr hneg)]
    by_cases hshort : (toInt v).natAbs < 127
    · have hbyte : (mp.limbs v 0 + 125).setWidth 8 = BitVec.ofNat 8 ((toInt v).natAbs + 125) := by
        apply BitVec.eq_of_toNat_eq
        rw [BitVec.toNat_setWidth, BitVec.toNat_add, ← habs, BitVec.toNat_ofNat,
          show (125 : BitVec 64).toNat = 125 from rfl]
        omega
      obtain ⟨hcode, hlen⟩ := code_neg hneg hshort
      rw [if_pos hshort, hcode, hlen, update_eq_written, hbyte]
    · obtain ⟨hcode, hlen⟩ := code_long (long_of_large (by omega)) (hbytes.trans (by decide))
      rw [if_neg hshort, hcode, hlen, hlong (by omega) 253, if_pos hneg]
      dsimp only
      rw [Int64Codec.writeLong_eq]
  · rw [if_pos hneg]
    by_cases hshort : (toInt v).natAbs < 126
    · have hbyte : (mp.limbs v 0).setWidth 8 = BitVec.ofNat 8 (toInt v).natAbs := by
        rw [habs, BitVec.ofNat_toNat]
      obtain ⟨hcode, hlen⟩ := code_nonneg (by omega) hshort
      rw [if_pos hshort, hcode, hlen, update_eq_written, hbyte]
    · obtain ⟨hcode, hlen⟩ := code_long ⟨by omega, by omega⟩ (hbytes.trans (by decide))
      rw [if_neg hshort, hcode, hlen, hlong (by omega) 252, if_neg hneg]
      dsimp only
      rw [Int64Codec.writeLong_eq]

theorem encode_eq (buffer : Cells 8) (v : V) (idx : ℕ) :
    encode mp buffer v idx =
      (written buffer idx (codeLength (toInt v)) (code (toInt v)), codeLength (toInt v)) := by
  obtain ⟨hhigh, hlow⟩ := byteLen_bounds h v
  by_cases hsize : mp.size v = 1
  · exact encode_one_limb h buffer hsize idx
  have hpos := h.size_pos v
  have hlow' := hlow (by omega)
  have hlarge : 126 < (toInt v).natAbs := by
    have hpow := lt_byteLen_iff.mp (by omega : 8 < byteLen (toInt v).natAbs)
    omega
  have hne : toInt v ≠ 0 := by omega
  have hne1 : idx ≠ idx + 1 := by omega
  by_cases hcount : mp.size v ≤ maxLimbs
  · have hbytes : byteLen (toInt v).natAbs ≤ 256 := by
      rw [maxLimbs] at hcount
      omega
    obtain ⟨hcode, hlen⟩ := code_long (long_of_large hlarge) hbytes
    simp only [encode, if_neg hsize, if_pos hcount, negative_iff h, h.exportBits v _ _ hne]
    rw [hcode, hlen, Function.update_comm hne1, show idx + 2 = idx + 1 + 1 from rfl, update_written,
      update_written, Int64Codec.longCode, ← Nat.add_assoc]
  · have hbytes : ¬byteLen (toInt v).natAbs ≤ 256 := by
      rw [maxLimbs] at hcount
      omega
    obtain ⟨hcode, hlen⟩ := code_quad (long_of_large hlarge) hbytes
    simp only [encode, if_neg hsize, if_neg hcount, negative_iff h, h.exportBits v _ _ hne]
    rw [hcode, hlen,
      foldl_update _ fun c => BitVec.ofNat 8 (byteLen (toInt v).natAbs >>> (c <<< 3)),
      writeQuad_eq]

/-- A code is read as its integer when its count of bytes can be told. -/
theorem read_eq {buffer : Cells 8} {idx : ℕ} {v : V}
    (hcount : Countable (byteLen (toInt v).natAbs))
    (hcode : ∀ i < codeLength (toInt v), buffer (idx + i) = code (toInt v) i) (old : V) :
    lengthAt buffer idx = codeLength (toInt v) ∧
      decode mp old buffer idx = (v, codeLength (toInt v)) := by
  have hread : ∀ u, toInt u = toInt v → u = v := fun u hu => h.toInt_injective hu
  have himport : ∀ start, (∀ i < byteLen (toInt v).natAbs,
      buffer (start + i) = byteAt (toInt v).natAbs i) → ∀ negative : Bool,
      (negative = true ↔ toInt v < 0) →
      mp.setSign (mp.importBits old buffer start (byteLen (toInt v).natAbs)) negative = v := by
    intro start hbytes negative hneg
    have hlt : (toInt v).natAbs < 256 ^ byteLen (toInt v).natAbs :=
      byteLen_le_iff.mp (Nat.le_refl _)
    apply hread
    rw [h.setSign, h.importBits, valueOf_congr hbytes, valueOf_byteAt, Nat.mod_eq_of_lt hlt]
    split_ifs with hsign
    · have := hneg.mp hsign
      omega
    · have : ¬toInt v < 0 := fun hlt => hsign (hneg.mpr hlt)
      omega
  by_cases hnonneg : 0 ≤ toInt v ∧ (toInt v).natAbs < 126
  · obtain ⟨hform, hlen⟩ := code_nonneg hnonneg.1 hnonneg.2
    rw [hform, hlen] at hcode
    have hhead : (buffer idx).toNat = (toInt v).natAbs := by
      rw [show buffer idx = _ from hcode 0 Nat.one_pos, BitVec.toNat_ofNat]
      omega
    have hvalue : mp.ofInt (buffer idx).toNat = v := by
      apply hread
      rw [h.ofInt, hhead]
      omega
    rw [lengthAt, if_pos (by omega), decode, if_pos (by omega), hvalue, hlen]
    exact ⟨rfl, rfl⟩
  by_cases hneg : toInt v < 0 ∧ (toInt v).natAbs < 127
  · obtain ⟨hform, hlen⟩ := code_neg hneg.1 hneg.2
    rw [hform, hlen] at hcode
    have hhead : (buffer idx).toNat = (toInt v).natAbs + 125 := by
      rw [show buffer idx = _ from hcode 0 Nat.one_pos, BitVec.toNat_ofNat]
      omega
    have hvalue : mp.ofInt (-((buffer idx).toNat - 125)) = v := by
      apply hread
      rw [h.ofInt, hhead]
      omega
    rw [lengthAt, if_pos (by omega), decode, if_neg (by omega), if_pos (by omega), hvalue, hlen]
    exact ⟨rfl, rfl⟩
  have hlong : Long (toInt v) := ⟨hnonneg, hneg⟩
  rcases hcount with hone | hquad
  · obtain ⟨hform, hlen⟩ := code_long hlong (hone.trans (by decide))
    rw [hform, hlen] at hcode
    obtain ⟨hhead, hbytes, hbody⟩ := Int64Codec.readLong_eq hone hcode
    have hnum : (buffer idx).toNat = if toInt v < 0 then 253 else 252 := by
      rw [hhead]
      split_ifs <;> rfl
    have hvalue := himport (idx + 2) hbody ((buffer idx).toNat = 253) (by
      rw [decide_eq_true_iff, hnum]
      split_ifs <;> omega)
    have hrange : 252 ≤ (buffer idx).toNat ∧ (buffer idx).toNat < 254 := by
      split_ifs at hnum <;> omega
    rw [lengthAt, if_neg (by omega), if_pos hrange.2, decode, if_neg (by omega), if_neg (by omega),
      if_pos hrange.2, hlen]
    dsimp only
    rw [hbytes, hvalue, Nat.add_comm 2]
    exact ⟨rfl, rfl⟩
  · obtain ⟨b, hpos, hle, heq⟩ := hquad
    have hlarge : 256 < byteLen (toInt v).natAbs := by omega
    obtain ⟨hform, hlen⟩ := code_quad hlong (by omega)
    rw [hform, hlen] at hcode
    obtain ⟨hhead, hcount, hbody⟩ := readQuad_eq hcode
    have hnum : (buffer idx).toNat = if toInt v < 0 then 255 else 254 := by
      rw [hhead]
      split_ifs <;> rfl
    have hvalue := himport (idx + 5) hbody ((buffer idx).toNat = 255) (by
      rw [decide_eq_true_iff, hnum]
      split_ifs <;> omega)
    have hrange : 254 ≤ (buffer idx).toNat := by
      split_ifs at hnum <;> omega
    have hlength : lengthAt buffer idx = 5 + byteLen (toInt v).natAbs := by
      rw [lengthAt_counts hrange hcount, (countable_iff hlarge).mpr (.inr ⟨b, hpos, hle, heq⟩),
        Nat.add_comm]
    have hread4 := count_eq (n := byteLen (toInt v).natAbs) (by omega) hcount
    rw [hlength, decode, if_neg (by omega), if_neg (by omega), if_neg (by omega), hlen]
    dsimp only
    rw [hread4, hvalue, Nat.add_comm 5]
    exact ⟨rfl, rfl⟩

theorem codes {v : V} (hcount : Countable (byteLen (toInt v).natAbs)) (old : V) :
    (codec mp old).Codes (fun buffer => buffer) v (code (toInt v)) := by
  have hlen := length_eq h v
  constructor
  · intro buffer idx
    change (encode mp buffer v idx).2 = length mp v
    rw [encode_eq h, hlen]
  · intro buffer idx
    change (encode mp buffer v idx).1 = written buffer idx (length mp v) (code (toInt v))
    rw [encode_eq h, hlen]
  · intro buffer idx _ hcode
    change ∀ i < length mp v, buffer (idx + i) = code (toInt v) i at hcode
    change lengthAt buffer idx = length mp v ∧ decode mp old buffer idx = (v, length mp v)
    rw [hlen] at hcode ⊢
    exact read_eq h hcount hcode old

/-- The length that is read of a count of bytes that cannot be told. -/
theorem lengthAt_ne {v : V} (hcount : ¬Countable (byteLen (toInt v).natAbs)) (buffer : Cells 8)
    (idx : ℕ) : lengthAt (encode mp buffer v idx).1 idx ≠ length mp v := by
  have hbytes : 255 < byteLen (toInt v).natAbs := by
    by_contra hle
    exact hcount (.inl (by omega))
  have hlarge : 126 < (toInt v).natAbs := by
    have hpow := lt_byteLen_iff.mp (by omega : 8 < byteLen (toInt v).natAbs)
    omega
  have hlong := long_of_large hlarge
  have hmem : ∀ i < codeLength (toInt v),
      (encode mp buffer v idx).1 (idx + i) = code (toInt v) i := by
    intro i hi
    rw [encode_eq h]
    exact written_of_mem hi
  rw [length_eq h]
  by_cases hone : byteLen (toInt v).natAbs ≤ 256
  · obtain ⟨hform, hlen⟩ := code_long hlong hone
    rw [hform, hlen] at hmem
    have hhead := hmem 0 (by omega)
    have hcountByte := hmem 1 (by omega)
    rw [Int64Codec.longCode, headed, Nat.add_zero] at hhead
    rw [Int64Codec.longCode, headed, headed, show byteLen (toInt v).natAbs = 256 by omega]
      at hcountByte
    have hnum : 252 ≤ ((encode mp buffer v idx).1 idx).toNat ∧
        ((encode mp buffer v idx).1 idx).toNat < 254 := by
      rw [hhead]
      split_ifs <;> decide
    rw [lengthAt, if_neg (by omega), if_pos hnum.2, hcountByte, hlen]
    intro heq
    have hzero : (BitVec.ofNat 8 256).toNat = 0 := rfl
    omega
  · obtain ⟨hform, hlen⟩ := code_quad hlong hone
    rw [hform, hlen] at hmem
    obtain ⟨hhead, hcounts, -⟩ := readQuad_eq hmem
    have hnum : 254 ≤ ((encode mp buffer v idx).1 idx).toNat := by
      rw [hhead]
      split_ifs <;> decide
    rw [lengthAt_counts hnum hcounts, hlen, Nat.add_comm 5]
    intro heq
    exact hcount ((countable_iff (by omega)).mp (Nat.add_right_cancel heq))

theorem not_roundTrips {v : V} (hcount : ¬Countable (byteLen (toInt v).natAbs)) (buffer : Cells 8)
    (old : V) (idx : ℕ) : ¬(codec mp old).RoundTrips (fun buffer => buffer) buffer v idx :=
  fun hread => lengthAt_ne h hcount buffer idx hread.lengthAt

/-- A number is read back where it was written if and only if its count of bytes can be told. -/
theorem roundTrips_iff_countable (buffer : Cells 8) (v old : V) (idx : ℕ) :
    (codec mp old).RoundTrips (fun buffer => buffer) buffer v idx ↔
      Countable (byteLen (toInt v).natAbs) := by
  constructor
  · intro hread
    by_contra hcount
    exact not_roundTrips h hcount buffer old idx hread
  · intro hcount
    exact (codes h hcount old).roundTrips buffer trivial

end Lawful

def integers : Multiprecision ℤ where
  size z := max 1 ((byteLen z.natAbs + 7) / 8)
  limbs z i := BitVec.ofNat 64 (z.natAbs / 256 ^ (i * 8))
  sign := Int.sign
  ofInt z := z
  exportBits z buffer idx :=
    (written buffer idx (byteLen z.natAbs) (byteAt z.natAbs), byteLen z.natAbs)
  importBits _ buffer idx len := valueOf (fun i => buffer (idx + i)) len
  setSign z negative := if negative then -(z.natAbs : ℤ) else z.natAbs

theorem limbsValue_integers (z : ℤ) (n : ℕ) :
    limbsValue (integers.limbs z) n = z.natAbs % 256 ^ (n * 8) := by
  induction n with
  | zero => rw [limbsValue, Nat.zero_mul, Nat.pow_zero, Nat.mod_one]
  | succ n ih =>
      have hlimb : (integers.limbs z n).toNat = z.natAbs / 256 ^ (n * 8) % 256 ^ 8 :=
        BitVec.toNat_ofNat _ _
      rw [limbsValue, ih, hlimb, Nat.add_one_mul, Nat.pow_add, Nat.mod_mul,
        Nat.mul_comm (256 ^ (n * 8))]

theorem integers_lawful : integers.Lawful id where
  toInt_injective := Function.injective_id
  size_pos z := Nat.le_max_left 1 _
  limbs z := by
    have hle : byteLen z.natAbs ≤ integers.size z * 8 := by
      change byteLen z.natAbs ≤ max 1 ((byteLen z.natAbs + 7) / 8) * 8
      omega
    rw [limbsValue_integers, Nat.mod_eq_of_lt (byteLen_le_iff.mp hle)]
    rfl
  top_ne_zero z hsize := by
    change 1 < max 1 ((byteLen z.natAbs + 7) / 8) at hsize
    have hsize' : integers.size z = (byteLen z.natAbs + 7) / 8 := by
      change max 1 ((byteLen z.natAbs + 7) / 8) = _
      omega
    have hlow : 256 ^ ((integers.size z - 1) * 8) ≤ z.natAbs := lt_byteLen_iff.mp (by omega)
    have hhigh : z.natAbs < 256 ^ (integers.size z * 8) := byteLen_le_iff.mp (by omega)
    have hpos : 0 < 256 ^ ((integers.size z - 1) * 8) := Nat.pow_pos (by decide)
    have hlimb : z.natAbs / 256 ^ ((integers.size z - 1) * 8) < 2 ^ 64 := by
      rw [Nat.div_lt_iff_lt_mul hpos, show 2 ^ 64 = 256 ^ 8 by decide, ← Nat.pow_add,
        show 8 + (integers.size z - 1) * 8 = integers.size z * 8 by omega]
      exact hhigh
    intro hzero
    have hnat := congrArg BitVec.toNat hzero
    change (BitVec.ofNat 64 (z.natAbs / 256 ^ ((integers.size z - 1) * 8))).toNat = 0 at hnat
    rw [BitVec.toNat_ofNat, Nat.mod_eq_of_lt hlimb] at hnat
    exact absurd (Nat.div_pos hlow hpos) (by omega)
  sign _ := rfl
  ofInt _ := rfl
  exportBits _ _ _ _ := rfl
  importBits _ _ _ _ := rfl
  setSign _ _ := rfl

theorem roundTrips_iff_countable_pow :
    (codec integers 0).RoundTrips (fun buffer => buffer) (fun _ => 0) (-(2 ^ 64)) 0 :=
  (roundTrips_iff_countable integers_lawful (fun _ => 0) (-(2 ^ 64)) 0 0).mpr (.inl (by
    rw [byteLen_le_iff]
    decide))

theorem not_countable_256 : ¬Countable 256 := by
  rintro (hle | ⟨b, -, -, hb⟩) <;> omega

theorem not_countable_pow : ¬Countable (byteLen (256 ^ 255 : ℤ).natAbs) := by
  have hbytes : byteLen (256 ^ 255 : ℤ).natAbs = 256 := by
    rw [Int.natAbs_pow]
    exact byteLen_eq (Nat.le_refl _) (Nat.pow_lt_pow_right (by decide) (by decide))
  rw [hbytes]
  exact not_countable_256

/-- A number of 256 bytes has the count 0. -/
theorem count_256_lost :
    ¬(codec integers 0).RoundTrips (fun buffer => buffer) (fun _ => 0) (256 ^ 255) 0 :=
  not_roundTrips integers_lawful not_countable_pow (fun _ => 0) 0 0

end BigIntegerCodec

end Memoria

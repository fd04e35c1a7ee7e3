import Memoria.ByteCodecs

/-!
# Codecs on bytes: the codes

Each codec is described by the codes it writes. A value is read back when it fits its header.
-/

namespace Memoria

open Lib

namespace ValueCodec

theorem bytes_eq {digits : BitVec 64} (h : digits ≠ 0) : bytes digits = byteLen digits.toNat := by
  have hsize : msb digits + 1 = digits.toNat.size := by
    have hlow := BitVec.two_pow_sub_clz_le_toNat_of_ne_zero (by decide) h
    have hhigh := BitVec.toNat_lt_two_pow_sub_clz (x := digits)
    have hclz := BitVec.clz_lt_iff_ne_zero.mpr h
    rw [BitVec.lt_def] at hclz
    change digits.clz.toNat < 64 at hclz
    rw [← Nat.lt_size] at hlow
    rw [← Nat.size_le] at hhigh
    rw [msb]
    omega
  have hmask : ∀ v : ℕ, v &&& 0x7 = v % 8 := fun v => Nat.and_two_pow_sub_one_eq_mod v 3
  rw [bytes, hsize, byteLen, hmask, Nat.shiftRight_eq_div_pow]
  split_ifs <;> omega

theorem serializeLoop_eq {shr : BitVec 64 → ℕ → BitVec 64} {value : BitVec 64}
    (hshr : ∀ c < 8, (shr value (c <<< 3)).setWidth 8 = byteAt value.toNat c) (n c idx : ℕ)
    (h : c + n ≤ 8) (buffer : Cells 8) :
    serializeLoop shr value n c idx buffer =
      written buffer idx n fun i => byteAt value.toNat (c + i) := by
  induction n generalizing c idx buffer with
  | zero => rw [written_zero]; rfl
  | succ n ih =>
      have hone : Function.update buffer idx (byteAt value.toNat c) =
          written buffer idx 1 fun i => byteAt value.toNat (c + i) := by
        rw [update_eq_written]
        apply written_congr
        intro i hi
        rw [Nat.lt_one_iff.mp hi, Nat.add_zero]
      have hshift : (fun i => byteAt value.toNat (c + 1 + i)) =
          fun i => byteAt value.toNat (c + (1 + i)) := by
        funext i
        rw [Nat.add_assoc]
      rw [serializeLoop, hshr c (by omega), ih (c + 1) (idx + 1) (by omega), hone, hshift,
        written_written _ fun i => byteAt value.toNat (c + i), Nat.add_comm 1]

theorem toNat_deserializeLoop (buffer : Cells 8) (n c idx : ℕ) {value : BitVec 64}
    (h : c + n ≤ 8) (hvalue : value.toNat < 256 ^ c) :
    (deserializeLoop buffer n c idx value).toNat =
      value.toNat + 256 ^ c * valueOf (fun i => buffer (idx + i)) n := by
  induction n generalizing c idx value with
  | zero => rfl
  | succ n ih =>
      have hpow : 256 ^ c = 2 ^ (8 * c) := by
        rw [Nat.pow_mul]
      have hshift : c <<< 3 = 8 * c := by
        rw [Nat.shiftLeft_eq, Nat.mul_comm]
      have hbyte := (buffer idx).isLt
      have hstep : 256 ^ c * (buffer idx).toNat + 256 ^ c ≤ 256 ^ (c + 1) := by
        rw [Nat.pow_succ, ← Nat.mul_succ]
        exact Nat.mul_le_mul_left _ hbyte
      have hone : (value ||| ((buffer idx).setWidth 64 <<< (c <<< 3))).toNat =
          value.toNat + 256 ^ c * (buffer idx).toNat := by
        have hfit : (buffer idx).toNat * 2 ^ (8 * c) < 2 ^ 64 := by
          have hle : 256 ^ (c + 1) ≤ 256 ^ 8 := Nat.pow_le_pow_right (by decide) (by omega)
          have hpos : 0 < 256 ^ c := Nat.pow_pos (by decide)
          rw [← hpow, Nat.mul_comm]
          omega
        have hwide : ((buffer idx).setWidth 64).toNat = (buffer idx).toNat :=
          BitVec.toNat_setWidth_of_le (by decide)
        rw [BitVec.toNat_or, BitVec.toNat_shiftLeft, hwide, hshift, Nat.shiftLeft_eq,
          Nat.mod_eq_of_lt hfit, Nat.or_comm, Nat.mul_comm,
          ← Nat.two_pow_add_eq_or_of_lt (hpow ▸ hvalue), hpow, Nat.add_comm]
      have hnext : (value ||| ((buffer idx).setWidth 64 <<< (c <<< 3))).toNat < 256 ^ (c + 1) := by
        rw [hone]
        omega
      have hrest : (fun i => buffer (idx + 1 + i)) = fun i => buffer (idx + (i + 1)) := by
        funext i
        rw [Nat.add_assoc, Nat.add_comm 1]
      rw [deserializeLoop, ih (c + 1) (idx + 1) (by omega) hnext, hone, valueOf, hrest,
        Nat.pow_succ, Nat.mul_add, Nat.add_assoc, Nat.mul_assoc, Nat.add_zero idx]

theorem ushiftRight_byte (value : BitVec 64) (c : ℕ) :
    (value >>> (c <<< 3)).setWidth 8 = byteAt value.toNat c := by
  apply BitVec.eq_of_toNat_eq
  rw [byteAt, BitVec.toNat_ofNat, BitVec.toNat_setWidth, BitVec.toNat_ushiftRight,
    Nat.shiftRight_eq_div_pow, Nat.shiftLeft_eq, Nat.mul_comm c, Nat.pow_mul]

theorem sshiftRight_byte (value : BitVec 64) {c : ℕ} (h : c < 8) :
    (value.sshiftRight (c <<< 3)).setWidth 8 = byteAt value.toNat c := by
  rw [← ushiftRight_byte]
  apply BitVec.eq_of_getLsbD_eq
  intro i hi
  have hshift : c <<< 3 = 8 * c := by
    rw [Nat.shiftLeft_eq, Nat.mul_comm]
  -- The bits of a byte are no copies of the sign.
  have hin : c <<< 3 + i < 64 := by omega
  simp only [BitVec.getLsbD_setWidth, BitVec.getLsbD_sshiftRight, BitVec.getLsbD_ushiftRight]
  rw [if_pos hin, decide_eq_false (by omega : ¬64 ≤ i), Bool.not_false, Bool.true_and]

theorem bytes_pos {digits : BitVec 64} (h : digits ≠ 0) : 0 < byteLen digits.toNat := by
  rw [lt_byteLen_iff]
  have hne : digits.toNat ≠ 0 := fun hz => h (BitVec.eq_of_toNat_eq hz)
  omega

theorem bytes_le (digits : BitVec 64) : byteLen digits.toNat ≤ 8 :=
  byteLen_le_iff.mpr digits.isLt

/-- A value is written as its bytes, the lowest first. -/
theorem serialize_eq {shr : BitVec 64 → ℕ → BitVec 64} {value : BitVec 64} (hvalue : value ≠ 0)
    (hshr : ∀ c < 8, (shr value (c <<< 3)).setWidth 8 = byteAt value.toNat c) (buffer : Cells 8)
    (idx : ℕ) :
    serialize shr buffer value idx =
      (written buffer idx (byteLen value.toNat) (byteAt value.toNat), byteLen value.toNat) := by
  have hle := bytes_le value
  rw [serialize, bytes_eq hvalue, serializeLoop_eq hshr _ 0 idx (by omega)]
  simp only [Nat.zero_add]

/-- The bytes of a value are read as the value. -/
theorem deserialize_eq {buffer : Cells 8} {value : BitVec 64} {idx : ℕ}
    (h : ∀ i < byteLen value.toNat, buffer (idx + i) = byteAt value.toNat i) :
    deserialize buffer 0 idx (byteLen value.toNat) = value := by
  apply BitVec.eq_of_toNat_eq
  have hle := bytes_le value
  have hlt : value.toNat < 256 ^ byteLen value.toNat := byteLen_le_iff.mp (Nat.le_refl _)
  rw [deserialize, toNat_deserializeLoop buffer _ 0 idx (by omega) (Nat.pow_pos (by decide)),
    valueOf_congr h, valueOf_byteAt, Nat.mod_eq_of_lt hlt, Nat.pow_zero, Nat.one_mul]
  exact Nat.zero_add value.toNat

end ValueCodec

namespace UInt64Codec

open ValueCodec

def code (value : BitVec 64) : ℕ → BitVec 8 :=
  if value.toNat < UpperBound - 1 then fun _ => (value + 1).setWidth 8
  else headed (BitVec.ofNat 8 (byteLen value.toNat + UpperBound)) (byteAt value.toNat)

theorem ne_zero_of_long {value : BitVec 64} (h : ¬value.toNat < UpperBound - 1) : value ≠ 0 := by
  rintro rfl
  exact h (by decide)

theorem length_long {value : BitVec 64} (h : ¬value.toNat < UpperBound - 1) :
    length value = 1 + byteLen value.toNat := by
  rw [length, if_neg h, bytes_eq (ne_zero_of_long h)]

theorem encode_eq (buffer : Cells 8) (value : BitVec 64) (idx : ℕ) :
    encode buffer value idx = (written buffer idx (length value) (code value), length value) := by
  by_cases h : value.toNat < UpperBound - 1
  · rw [encode, if_pos h, length, if_pos h, code, if_pos h, update_eq_written]
  · rw [encode, if_neg h, length_long h, code, if_neg h,
      serialize_eq (ne_zero_of_long h) fun c _ => ushiftRight_byte value c]
    dsimp only
    rw [update_written]

theorem toNat_succ_short {value : BitVec 64} (h : value.toNat < UpperBound - 1) :
    ((value + 1).setWidth 8).toNat = value.toNat + 1 := by
  have hone : (1 : BitVec 64).toNat = 1 := rfl
  rw [UpperBound] at h
  rw [BitVec.toNat_setWidth, BitVec.toNat_add, hone]
  omega

/-- A value below 2^56 has a code: its header stands above the headers of the one-byte codes. -/
theorem codes {value : BitVec 64} (h : value.toNat < 2 ^ 56) :
    codec.Codes (fun buffer => buffer) value (code value) where
  encode_length buffer idx := congrArg Prod.snd (encode_eq buffer value idx)
  writes buffer idx := congrArg Prod.fst (encode_eq buffer value idx)
  reads buffer idx _ hcode := by
    change lengthAt buffer idx = length value ∧ decode buffer idx = (value, length value)
    change ∀ i < length value, buffer (idx + i) = code value i at hcode
    by_cases hshort : value.toNat < UpperBound - 1
    · rw [length, if_pos hshort, code, if_pos hshort] at hcode
      have hhead : buffer idx = (value + 1).setWidth 8 := hcode 0 Nat.one_pos
      have hnum := toNat_succ_short hshort
      have hbelow : (buffer idx).toNat < UpperBound := by
        rw [hhead, hnum]
        exact Nat.succ_lt_of_lt_pred hshort
      have hvalue : (buffer idx).setWidth 64 - 1 = value := by
        have hwide : (buffer idx).setWidth 64 = value + 1 := by
          apply BitVec.eq_of_toNat_eq
          have hone : (1 : BitVec 64).toNat = 1 := rfl
          rw [BitVec.toNat_setWidth_of_le (by decide), hhead, hnum, BitVec.toNat_add, hone]
          omega
        rw [hwide, BitVec.add_sub_cancel]
      rw [lengthAt, if_pos hbelow, decode, if_pos hbelow, length, if_pos hshort, hvalue]
      exact ⟨rfl, rfl⟩
    · rw [length_long hshort, code, if_neg hshort] at hcode
      have hle : byteLen value.toNat ≤ 7 := byteLen_le_iff.mpr h
      have hhead : (buffer idx).toNat = byteLen value.toNat + UpperBound := by
        rw [show buffer idx = _ from hcode 0 (by omega), headed, BitVec.toNat_ofNat, UpperBound]
        omega
      have habove : ¬(buffer idx).toNat < UpperBound := by omega
      have hbody : deserialize buffer 0 (idx + 1) (byteLen value.toNat) = value := by
        apply deserialize_eq
        intro i hi
        rw [Nat.add_assoc, hcode (1 + i) (by omega), headed_body]
      rw [lengthAt, if_neg habove, decode, if_neg habove, length_long hshort]
      dsimp only
      rw [hhead, Nat.add_sub_cancel, hbody, Nat.add_comm 1]
      exact ⟨rfl, rfl⟩

/-- The header of an eight-byte code is cut to 0, the header of a one-byte code. -/
theorem lengthAt_of_large (buffer : Cells 8) {value : BitVec 64} (h : ¬value.toNat < 2 ^ 56)
    (idx : ℕ) :
    length value = 9 ∧ lengthAt (encode buffer value idx).1 idx = 1 := by
  have hlong : ¬value.toNat < UpperBound - 1 := by
    rw [UpperBound]
    omega
  have hbytes : byteLen value.toNat = 8 :=
    Nat.le_antisymm (bytes_le value) (lt_byteLen_iff.mpr (by omega))
  have hhead : (encode buffer value idx).1 idx = 0 := by
    rw [encode_eq, length_long hlong, code, if_neg hlong, hbytes]
    exact written_of_mem (i := 0) (by decide)
  rw [length_long hlong, hbytes, lengthAt, hhead]
  exact ⟨rfl, rfl⟩

/-- A value is read back where it was written if and only if it has at most seven bytes. -/
theorem roundTrips_iff (buffer : Cells 8) (value : BitVec 64) (idx : ℕ) :
    codec.RoundTrips (fun buffer => buffer) buffer value idx ↔ value.toNat < 2 ^ 56 := by
  constructor
  · intro h
    by_contra hlarge
    obtain ⟨hlength, hat⟩ := lengthAt_of_large buffer hlarge idx
    have heq : lengthAt (encode buffer value idx).1 idx = length value := h.lengthAt
    rw [hlength, hat] at heq
    omega
  · intro h
    exact (codes h).roundTrips buffer trivial

/-- The code of 2^56 has nine bytes and is read as a one-byte code. -/
theorem two_pow_56_lost :
    ¬codec.RoundTrips (fun buffer => buffer) (fun _ => 0) (BitVec.ofNat 64 (2 ^ 56)) 0 ∧
      length (BitVec.ofNat 64 (2 ^ 56)) = 9 ∧
      decode (encode (fun _ => 0) (BitVec.ofNat 64 (2 ^ 56)) 0).1 0 = (BitVec.allOnes 64, 1) := by
  refine ⟨?_, by decide, by decide⟩
  intro h
  exact absurd h.lengthAt (by decide)

end UInt64Codec

namespace Int64Codec

open ValueCodec

def longCode (header : BitVec 8) (digits : ℕ) : ℕ → BitVec 8 :=
  headed header (headed (BitVec.ofNat 8 (byteLen digits)) (byteAt digits))

def code (value : BitVec 64) : ℕ → BitVec 8 :=
  if value.toInt ≥ 0 then
    if value.toInt < 126 then fun _ => value.setWidth 8 else longCode 252 value.toNat
  else if value.toInt > -127 then fun _ => (-value + 125).setWidth 8
  else longCode 253 (-value).toNat

/-- What is written of a long code. -/
theorem writeLong_eq (buffer : Cells 8) (header : BitVec 8) (digits idx : ℕ) :
    Function.update (written (Function.update buffer idx header) (idx + 2) (byteLen digits)
        (byteAt digits)) (idx + 1) (BitVec.ofNat 8 (byteLen digits)) =
      written buffer idx (2 + byteLen digits) (longCode header digits) := by
  rw [show idx + 2 = idx + 1 + 1 from rfl, update_written, written_update, longCode,
    ← Nat.add_assoc]

/-- What is read from a long code. -/
theorem readLong_eq {buffer : Cells 8} {header : BitVec 8} {digits idx : ℕ}
    (hle : byteLen digits ≤ 255)
    (h : ∀ i < 2 + byteLen digits, buffer (idx + i) = longCode header digits i) :
    buffer idx = header ∧ (buffer (idx + 1)).toNat = byteLen digits ∧
      ∀ i < byteLen digits, buffer (idx + 2 + i) = byteAt digits i := by
  refine ⟨h 0 (by omega), ?_, ?_⟩
  · rw [h 1 (by omega), longCode, headed, headed, BitVec.toNat_ofNat]
    omega
  · intro i hi
    rw [Nat.add_assoc, h (2 + i) (by omega), longCode, show 2 + i = 1 + (1 + i) by omega,
      headed_body, headed_body]

theorem toInt_of_nonneg {value : BitVec 64} (h : value.toInt ≥ 0) :
    value.toInt = value.toNat := by
  have hlt := value.isLt
  rw [BitVec.toInt_eq_toNat_cond] at h ⊢
  split_ifs at h ⊢ <;> omega

/-- The magnitude of a negative value; that of the least value is its own two's complement. -/
theorem toNat_neg_of_neg {value : BitVec 64} (h : ¬value.toInt ≥ 0) :
    ((-value).toNat : ℤ) = -value.toInt := by
  have hlt := value.isLt
  rw [BitVec.toInt_eq_toNat_cond] at h ⊢
  rw [BitVec.toNat_neg]
  split_ifs at h ⊢ <;> omega

theorem ne_zero_of_toNat {digits : BitVec 64} (h : 0 < digits.toNat) : digits ≠ 0 := by
  rintro rfl
  exact absurd h (by decide)

theorem encode_eq (buffer : Cells 8) (value : BitVec 64) (idx : ℕ) :
    encode buffer value idx = (written buffer idx (length value) (code value), length value) := by
  by_cases hsign : value.toInt ≥ 0
  · by_cases hshort : value.toInt < 126
    · rw [encode, if_pos hsign, if_pos hshort, length, if_pos hsign, if_pos hshort, code,
        if_pos hsign, if_pos hshort, update_eq_written]
    · have hvalue : value ≠ 0 := ne_zero_of_toNat (by have := toInt_of_nonneg hsign; omega)
      rw [encode, if_pos hsign, if_neg hshort, length, if_pos hsign, if_neg hshort, code,
        if_pos hsign, if_neg hshort, bytes_eq hvalue]
      simp only [serialize_eq hvalue fun c hc => sshiftRight_byte value hc]
      rw [writeLong_eq]
  · by_cases hshort : value.toInt > -127
    · rw [encode, if_neg hsign, if_pos hshort, length, if_neg hsign, if_pos hshort, code,
        if_neg hsign, if_pos hshort, update_eq_written]
    · have hvalue : -value ≠ 0 := ne_zero_of_toNat (by have := toNat_neg_of_neg hsign; omega)
      rw [encode, if_neg hsign, if_neg hshort, length, if_neg hsign, if_neg hshort, code,
        if_neg hsign, if_neg hshort, bytes_eq hvalue]
      simp only [serialize_eq hvalue fun c hc => sshiftRight_byte (-value) hc]
      rw [writeLong_eq]

/-- What the four forms of a code are read as. -/
theorem read_eq {buffer : Cells 8} {value : BitVec 64} {idx : ℕ}
    (h : ∀ i < length value, buffer (idx + i) = code value i) :
    lengthAt buffer idx = length value ∧ decode buffer idx = (value, length value) := by
  by_cases hsign : value.toInt ≥ 0
  · have hnat := toInt_of_nonneg hsign
    by_cases hshort : value.toInt < 126
    · rw [length, if_pos hsign, if_pos hshort, code, if_pos hsign, if_pos hshort] at h
      have hhead : (buffer idx).toNat = value.toNat := by
        rw [show buffer idx = _ from h 0 Nat.one_pos, BitVec.toNat_setWidth]
        omega
      have hvalue : (buffer idx).setWidth 64 = value := by
        apply BitVec.eq_of_toNat_eq
        rw [BitVec.toNat_setWidth_of_le (by decide), hhead]
      rw [lengthAt, if_pos (by omega), decode, if_pos (by omega), length, if_pos hsign,
        if_pos hshort, hvalue]
      exact ⟨rfl, rfl⟩
    · have hvalue : value ≠ 0 := ne_zero_of_toNat (by omega)
      rw [length, if_pos hsign, if_neg hshort, bytes_eq hvalue, code, if_pos hsign,
        if_neg hshort] at h
      obtain ⟨hhead, hlen, hbytes⟩ := readLong_eq ((bytes_le _).trans (by decide)) h
      have hbody := deserialize_eq hbytes
      have hnum : (buffer idx).toNat = 252 := by
        rw [hhead]
        rfl
      rw [lengthAt, if_neg (by omega), decode, if_neg (by omega), if_neg (by omega), length,
        if_pos hsign, if_neg hshort, bytes_eq hvalue]
      simp only [hlen, hbody, hhead]
      rw [if_neg (by decide), Nat.add_comm 2]
      exact ⟨rfl, rfl⟩
  · have hneg := toNat_neg_of_neg hsign
    by_cases hshort : value.toInt > -127
    · rw [length, if_neg hsign, if_pos hshort, code, if_neg hsign, if_pos hshort] at h
      have hoffset : (125 : BitVec 64).toNat = 125 := rfl
      have hhead : (buffer idx).toNat = (-value).toNat + 125 := by
        rw [show buffer idx = _ from h 0 Nat.one_pos, BitVec.toNat_setWidth, BitVec.toNat_add,
          hoffset]
        omega
      have hwide : (buffer idx).setWidth 64 = -value + 125 := by
        apply BitVec.eq_of_toNat_eq
        rw [BitVec.toNat_setWidth_of_le (by decide), hhead, BitVec.toNat_add, hoffset]
        omega
      have hvalue : -((buffer idx).setWidth 64 - 125) = value := by
        rw [hwide, BitVec.add_sub_cancel, BitVec.neg_neg]
      rw [lengthAt, if_pos (by omega), decode, if_neg (by omega), if_pos (by omega), length,
        if_neg hsign, if_pos hshort, hvalue]
      exact ⟨rfl, rfl⟩
    · have hvalue : -value ≠ 0 := ne_zero_of_toNat (by omega)
      rw [length, if_neg hsign, if_neg hshort, bytes_eq hvalue, code, if_neg hsign,
        if_neg hshort] at h
      obtain ⟨hhead, hlen, hbytes⟩ := readLong_eq ((bytes_le _).trans (by decide)) h
      have hbody := deserialize_eq hbytes
      have hnum : (buffer idx).toNat = 253 := by
        rw [hhead]
        rfl
      rw [lengthAt, if_neg (by omega), decode, if_neg (by omega), if_neg (by omega), length,
        if_neg hsign, if_neg hshort, bytes_eq hvalue]
      simp only [hlen, hbody, hhead]
      rw [if_pos (by trivial), BitVec.neg_neg, Nat.add_comm 2]
      exact ⟨rfl, rfl⟩

theorem codes (value : BitVec 64) : codec.Codes (fun buffer => buffer) value (code value) where
  encode_length buffer idx := congrArg Prod.snd (encode_eq buffer value idx)
  writes buffer idx := congrArg Prod.fst (encode_eq buffer value idx)
  reads _ _ _ hcode := read_eq hcode

/-- Every value is read back where it was written. -/
theorem roundTrips_all (buffer : Cells 8) (value : BitVec 64) (idx : ℕ) :
    codec.RoundTrips (fun buffer => buffer) buffer value idx :=
  (codes value).roundTrips buffer trivial

end Int64Codec

end Memoria

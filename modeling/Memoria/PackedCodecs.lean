import Memoria.BitRuns
import Memoria.Lib.Codecs

/-!
# The codecs of the packed trees

The Elias and I64 codecs write the bits of an array of 64-bit cells, the ExInt and I7 codecs write
bytes. The type of the values is a parameter of all four. Signed values are bits in two's
complement, and `size_t` positions are natural numbers.
-/

namespace Memoria

open Lib (Cells bit Codec)
open BitBuffer

inductive ValueType where
  | int32
  | uint32
  | int64
  | uint64
  deriving DecidableEq

namespace ValueType

def bits : ValueType → ℕ
  | int32 | uint32 => 32
  | int64 | uint64 => 64

def signed : ValueType → Bool
  | int32 | int64 => true
  | uint32 | uint64 => false

variable (t : ValueType)

def num (value : BitVec t.bits) : ℤ := if t.signed then value.toInt else value.toNat

def u64 (value : BitVec t.bits) : BitVec 64 :=
  if t.signed then value.signExtend 64 else value.setWidth 64

def ofU64 (value : BitVec 64) : BitVec t.bits := value.setWidth t.bits

def shiftRight (value : BitVec t.bits) (n : ℕ) : BitVec t.bits :=
  if t.signed then value.sshiftRight n else value >>> n

variable {t}

theorem num_eq_toNat {value : BitVec t.bits} (h : 0 ≤ t.num value) :
    t.num value = value.toNat := by
  rw [num] at h ⊢
  split_ifs at h ⊢ with hsigned
  · have hlt := value.isLt
    rw [BitVec.toInt_eq_toNat_cond] at h ⊢
    split_ifs at h ⊢ <;> omega
  · rfl

theorem msb_of_nonneg {value : BitVec t.bits} (h : 0 ≤ t.num value) (hsigned : t.signed) :
    value.msb = false := by
  rw [num, if_pos hsigned] at h
  rw [BitVec.msb_eq_toInt]
  exact decide_eq_false (by omega)

/-- A shift of a value that is not negative divides it. -/
theorem toNat_shiftRight {value : BitVec t.bits} (h : 0 ≤ t.num value) (n : ℕ) :
    (t.shiftRight value n).toNat = value.toNat / 2 ^ n := by
  rw [shiftRight]
  split_ifs with hsigned
  · rw [BitVec.sshiftRight_eq_of_msb_false (msb_of_nonneg h hsigned), BitVec.toNat_ushiftRight,
      Nat.shiftRight_eq_div_pow]
  · rw [BitVec.toNat_ushiftRight, Nat.shiftRight_eq_div_pow]

theorem num_shiftRight {value : BitVec t.bits} (h : 0 ≤ t.num value) (n : ℕ) :
    0 ≤ t.num (t.shiftRight value n) := by
  rw [num] at h ⊢
  rw [shiftRight]
  split_ifs at h ⊢ with hsigned
  · rw [BitVec.toInt_sshiftRight, Int.shiftRight_eq_div_pow]
    exact Int.ediv_nonneg h (by exact_mod_cast Nat.zero_le _)
  · exact Int.natCast_nonneg _

theorem toNat_shiftRight_lt {value : BitVec t.bits} (h : t.num value > 0) :
    (t.shiftRight value 8).toNat < value.toNat := by
  have hnum := num_eq_toNat h.le
  rw [toNat_shiftRight h.le]
  omega

end ValueType

def ctLZ_ (val : BitVec 64) : ℕ → ℕ
  | 0 => if val &&& BitVec.twoPow 64 0 = 0 then 1 else 0
  | n + 1 => if val &&& BitVec.twoPow 64 (n + 1) = 0 then 1 + ctLZ_ val n else 0

def ctLZ (val : BitVec 64) : ℕ := ctLZ_ val 63

def log2 (value : BitVec 64) : ℕ := 64 - ctLZ value

def testBit (buf : Cells 64) (idx : ℕ) : Bool := buf (idx / 64) &&& (1#64 <<< (idx % 64)) ≠ 0

def clearBit (buf : Cells 64) (idx : ℕ) : Cells 64 :=
  Function.update buf (idx / 64) (buf (idx / 64) &&& ~~~(1#64 <<< (idx % 64)))

namespace EliasDeltaCodec

variable (t : ValueType)

def getEliasDeltaValueLength (value : BitVec t.bits) : ℕ :=
  let length := log2 (t.u64 value)
  let length_length := sub64 (log2 (BitVec.ofNat 64 length)) 1
  (length_length * 2 + length) % 2 ^ 64

def encodeEliasDelta (buffer : Cells 64) (value : BitVec t.bits) (start : ℕ) : Cells 64 × ℕ :=
  if t.num value > 1 then
    let length := log2 (t.u64 value)
    let length_length := log2 (BitVec.ofNat 64 length) - 1
    let buffer := fillZero buffer start (start + length_length)
    let length0 := (BitVec.ofNat t.bits length <<< 1) + 1
    let start := start + length_length
    let buffer := setBits buffer start (t.u64 length0) (length_length + 1)
    let start := start + (length_length + 1)
    let buffer := setBits buffer start (t.u64 value) (length - 1)
    (buffer, length_length * 2 + length)
  else (setBits buffer start 1 1, 1)

def decodeEliasDelta (buffer : Cells 64) (start limit : ℕ) : BitVec t.bits × ℕ :=
  if testBit buffer start then (1, 1)
  else
    let trailing_zeroes := countTrailingZeroes buffer start limit
    let start := start + trailing_zeroes
    let length := getBits buffer start (trailing_zeroes + 1)
    let length := (length >>> 1) + (1#64 <<< trailing_zeroes)
    let start := start + (trailing_zeroes + 1)
    let value := t.ofU64 (getBits buffer start (length - 1).toNat)
    let value := value + t.ofU64 (1#64 <<< (length - 1).toNat)
    (value, 2 * trailing_zeroes + length.toNat)

def decodeEliasDeltaLength (buffer : Cells 64) (start limit : ℕ) : ℕ :=
  if testBit buffer start then 1
  else
    let trailing_zeroes := countTrailingZeroes buffer start limit
    let start := start + trailing_zeroes
    let length := getBits buffer start (trailing_zeroes + 1)
    let length := (length >>> 1) + (1#64 <<< trailing_zeroes)
    2 * trailing_zeroes + length.toNat

def codec (limit : ℕ) : Codec (Cells 64) (BitVec t.bits) where
  length value := getEliasDeltaValueLength t (value + 1)
  lengthAt buffer idx := decodeEliasDeltaLength buffer idx limit
  encode buffer value idx := encodeEliasDelta t buffer (value + 1) idx
  decode buffer idx :=
    let (value, len) := decodeEliasDelta t buffer idx limit
    (value - 1, len)
  fits stop := stop ≤ limit
  fits_of_le h hfits := h.trans hfits

end EliasDeltaCodec

namespace I64Codec

variable (t : ValueType)

def getI64ValueLength (value : BitVec t.bits) : ℕ :=
  if value = 0 then 1
  else if t.num value < 64 then 8
  else 8 + log2 (t.u64 value)

def getI64ValueLengthAt (buffer : Cells 64) (start : ℕ) : ℕ :=
  let length := getBits buffer start 8
  if length &&& 0x1 = 0 then 1
  else if length &&& 0x2 = 0 then 8
  else (length >>> 2).toNat + 8

def encodeI64 (buffer : Cells 64) (value : BitVec t.bits) (start : ℕ) : Cells 64 × ℕ :=
  if value = 0 then (clearBit buffer start, 1)
  else if t.num value < 64 then
    let v := (value <<< 2) + 1
    (setBits buffer start (t.u64 v) 8, 8)
  else
    let len := log2 (t.u64 value)
    let v := (BitVec.ofNat t.bits len <<< 2) + 3
    let buffer := setBits buffer start (t.u64 v) 8
    let buffer := setBits buffer (start + 8) (t.u64 value) len
    (buffer, 8 + len)

def decodeI64 (buffer : Cells 64) (start : ℕ) : BitVec t.bits × ℕ :=
  let length := getBits buffer start 8
  if length &&& 0x1 = 0 then (0, 1)
  else if length &&& 0x2 = 0 then (t.ofU64 (length >>> 2), 8)
  else
    let len := (length >>> 2).toNat
    (t.ofU64 (getBits buffer (start + 8) len), len + 8)

def codec : Codec (Cells 64) (BitVec t.bits) where
  length := getI64ValueLength t
  lengthAt := getI64ValueLengthAt
  encode := encodeI64 t
  decode := decodeI64 t

end I64Codec

namespace ByteLoops

variable (t : ValueType)

def lengthLoop (value : BitVec t.bits) (length : ℕ) : ℕ :=
  if t.num value > 0 then lengthLoop (t.shiftRight value 8) (length + 1) else length
  termination_by value.toNat
  decreasing_by exact ValueType.toNat_shiftRight_lt ‹_›

def encodeLoop (start : ℕ) (value : BitVec t.bits) (idx : ℕ) (buffer : Cells 8) : Cells 8 :=
  if t.num value > 0 then
    let buffer := Function.update buffer start (buffer start + 1)
    let buffer := Function.update buffer idx (value.setWidth 8)
    encodeLoop start (t.shiftRight value 8) (idx + 1) buffer
  else buffer
  termination_by value.toNat
  decreasing_by exact ValueType.toNat_shiftRight_lt ‹_›

def decodeLoop (buffer : Cells 8) : ℕ → ℕ → ℕ → BitVec t.bits → BitVec t.bits
  | 0, _, _, value => value
  | n + 1, idx, shift, value =>
      decodeLoop buffer n (idx + 1) (shift + 8)
        (value ||| ((buffer idx).setWidth t.bits <<< shift))

end ByteLoops

namespace ExintCodec

open ByteLoops

variable (t : ValueType)

def getExintValueLength (value : BitVec t.bits) : ℕ := lengthLoop t value 1

def encodeExint (buffer : Cells 8) (value : BitVec t.bits) (start : ℕ) : Cells 8 × ℕ :=
  let buffer := Function.update buffer start 0
  let buffer := encodeLoop t start value (start + 1) buffer
  (buffer, (buffer start).toNat + 1)

def decodeExint (buffer : Cells 8) (start : ℕ) : BitVec t.bits × ℕ :=
  let byte_length := (buffer start).toNat
  (decodeLoop t buffer byte_length (start + 1) 0 0, byte_length + 1)

def codec : Codec (Cells 8) (BitVec t.bits) where
  length := getExintValueLength t
  lengthAt buffer idx := (buffer idx).toNat + 1
  encode := encodeExint t
  decode := decodeExint t

end ExintCodec

namespace I7Codec

open ByteLoops

variable (t : ValueType)

def getI7ValueLength (value : BitVec t.bits) : ℕ :=
  if t.num value < 128 then 1 else lengthLoop t value 1

def encodeI7 (buffer : Cells 8) (value : BitVec t.bits) (start : ℕ) : Cells 8 × ℕ :=
  if t.num value < 128 then (Function.update buffer start (value.setWidth 8), 1)
  else
    let buffer := Function.update buffer start 0
    let buffer := encodeLoop t start value (start + 1) buffer
    let len := (buffer start).toNat
    (Function.update buffer start (buffer start + 128), len + 1)

def decodeI7 (buffer : Cells 8) (start : ℕ) : BitVec t.bits × ℕ :=
  if (buffer start).toNat < 128 then ((buffer start).setWidth t.bits, 1)
  else
    let byte_length := (buffer start).toNat - 128
    (decodeLoop t buffer byte_length (start + 1) 0 0, byte_length + 1)

def codec : Codec (Cells 8) (BitVec t.bits) where
  length := getI7ValueLength t
  lengthAt buffer idx :=
    if (buffer idx).toNat < 128 then 1 else (buffer idx).toNat - 128 + 1
  encode := encodeI7 t
  decode := decodeI7 t

end I7Codec

end Memoria

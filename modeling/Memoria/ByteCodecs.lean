import Memoria.Lib.Codecs

/-!
# Codecs on bytes

The codecs that write a number as a short code of one byte, or as its bytes behind a header. A
buffer is an array of bytes, and what is assigned to a byte is cut to eight bits. A signed value is
its bits in two's complement.
-/

namespace Memoria

open Lib (Cells Codec)

namespace ValueCodec

def msb (digits : BitVec 64) : ℕ := 63 - digits.clz.toNat

def bytes (digits : BitVec 64) : ℕ :=
  let v := msb digits + 1
  (v >>> 3) + (if v &&& 0x7 ≠ 0 then 1 else 0)

/-- `n` rounds of the loop of `serialize`, from round `c` on; `shr` is `>>` on the type of the
value. -/
def serializeLoop (shr : BitVec 64 → ℕ → BitVec 64) (value : BitVec 64) :
    ℕ → ℕ → ℕ → Cells 8 → Cells 8
  | 0, _, _, buffer => buffer
  | n + 1, c, idx, buffer =>
      serializeLoop shr value n (c + 1) (idx + 1)
        (Function.update buffer idx ((shr value (c <<< 3)).setWidth 8))

def serialize (shr : BitVec 64 → ℕ → BitVec 64) (buffer : Cells 8) (value : BitVec 64) (idx : ℕ) :
    Cells 8 × ℕ :=
  let len := bytes value
  (serializeLoop shr value len 0 idx buffer, len)

def deserializeLoop (buffer : Cells 8) : ℕ → ℕ → ℕ → BitVec 64 → BitVec 64
  | 0, _, _, value => value
  | n + 1, c, idx, value =>
      deserializeLoop buffer n (c + 1) (idx + 1)
        (value ||| ((buffer idx).setWidth 64 <<< (c <<< 3)))

def deserialize (buffer : Cells 8) (value : BitVec 64) (idx len : ℕ) : BitVec 64 :=
  deserializeLoop buffer len 0 idx value

end ValueCodec

namespace UInt64Codec

open ValueCodec

def UpperBound : ℕ := 248

def length (value : BitVec 64) : ℕ :=
  if value.toNat < UpperBound - 1 then 1 else 1 + bytes value

def lengthAt (buffer : Cells 8) (idx : ℕ) : ℕ :=
  let head := (buffer idx).toNat
  if head < UpperBound then 1 else head - UpperBound + 1

def decode (buffer : Cells 8) (idx : ℕ) : BitVec 64 × ℕ :=
  let header := buffer idx
  if header.toNat < UpperBound then (header.setWidth 64 - 1, 1)
  else
    let len := header.toNat - UpperBound
    (deserialize buffer 0 (idx + 1) len, len + 1)

def encode (buffer : Cells 8) (value : BitVec 64) (idx : ℕ) : Cells 8 × ℕ :=
  if value.toNat < UpperBound - 1 then (Function.update buffer idx ((value + 1).setWidth 8), 1)
  else
    let (buffer, len) := serialize (· >>> ·) buffer value (idx + 1)
    (Function.update buffer idx (BitVec.ofNat 8 (len + UpperBound)), 1 + len)

def codec : Codec (Cells 8) (BitVec 64) where
  length := length
  lengthAt := lengthAt
  encode := encode
  decode := decode

end UInt64Codec

namespace Int64Codec

open ValueCodec

def length (value : BitVec 64) : ℕ :=
  if value.toInt ≥ 0 then
    if value.toInt < 126 then 1 else 2 + bytes value
  else if value.toInt > -127 then 1
  else 2 + bytes (-value)

def lengthAt (buffer : Cells 8) (idx : ℕ) : ℕ :=
  let head := (buffer idx).toNat
  if head < 252 then 1 else (buffer (idx + 1)).toNat + 2

def decode (buffer : Cells 8) (idx : ℕ) : BitVec 64 × ℕ :=
  let header := buffer idx
  if header.toNat < 126 then (header.setWidth 64, 1)
  else if header.toNat < 252 then (-(header.setWidth 64 - 125), 1)
  else
    let len := (buffer (idx + 1)).toNat
    let value := deserialize buffer 0 (idx + 2) len
    (if header = 253 then -value else value, len + 2)

def encode (buffer : Cells 8) (value : BitVec 64) (idx : ℕ) : Cells 8 × ℕ :=
  if value.toInt ≥ 0 then
    if value.toInt < 126 then (Function.update buffer idx (value.setWidth 8), 1)
    else
      let buffer := Function.update buffer idx 252
      let (buffer, len) := serialize BitVec.sshiftRight buffer value (idx + 2)
      (Function.update buffer (idx + 1) (BitVec.ofNat 8 len), 2 + len)
  else if value.toInt > -127 then (Function.update buffer idx ((-value + 125).setWidth 8), 1)
  else
    let buffer := Function.update buffer idx 253
    let (buffer, len) := serialize BitVec.sshiftRight buffer (-value) (idx + 2)
    (Function.update buffer (idx + 1) (BitVec.ofNat 8 len), 2 + len)

def codec : Codec (Cells 8) (BitVec 64) where
  length := length
  lengthAt := lengthAt
  encode := encode
  decode := decode

end Int64Codec

/-- The operations of the multiprecision numbers that the codec uses: the size and the limbs of the
backend, the sign, the assignment of an integer, `export_bits` and `import_bits` in chunks of eight
bits with the lowest first, and `backend().sign`. -/
structure Multiprecision (V : Type) where
  size : V → ℕ
  limbs : V → ℕ → BitVec 64
  sign : V → ℤ
  ofInt : ℤ → V
  exportBits : V → Cells 8 → ℕ → Cells 8 × ℕ
  importBits : V → Cells 8 → ℕ → ℕ → V
  setSign : V → Bool → V

namespace BigIntegerCodec

open ValueCodec

variable {V : Type} (mp : Multiprecision V)

def maxLimbs : ℕ := 256 / 8

def byteLength (data : ℕ → BitVec 64) (size : ℕ) : ℕ := bytes (data (size - 1)) + (size - 1) * 8

def length (value : V) : ℕ :=
  let size := mp.size value
  let limbs := mp.limbs value
  let negative := mp.sign value = -1
  if size = 1 then
    if ¬negative then
      if (limbs 0).toNat < 126 then 1 else 2 + byteLength limbs size
    else if (limbs 0).toNat < 127 then 1
    else 2 + byteLength limbs size
  else if size ≤ maxLimbs then 2 + byteLength limbs size
  else 5 + byteLength limbs size

def lengthAt (buffer : Cells 8) (idx : ℕ) : ℕ :=
  let head := (buffer idx).toNat
  if head < 252 then 1
  else if head < 254 then (buffer (idx + 1)).toNat + 2
  else
    let len := (List.range' (idx + 1) 3).foldl
      (fun len c => (len ||| (buffer c).setWidth 64) <<< 8) (0 : BitVec 64)
    len.toNat + 5

def decode (value : V) (buffer : Cells 8) (idx : ℕ) : V × ℕ :=
  let header := (buffer idx).toNat
  if header < 126 then (mp.ofInt header, 1)
  else if header < 252 then (mp.ofInt (-(header - 125)), 1)
  else if header < 254 then
    let len := (buffer (idx + 1)).toNat
    let value := mp.importBits value buffer (idx + 2) len
    (mp.setSign value (header = 253), len + 2)
  else
    let len := (List.range 4).foldl
      (fun len c => len ||| ((buffer (idx + 1 + c)).setWidth 64 <<< (c <<< 3))) (0 : BitVec 64)
    let value := mp.importBits value buffer (idx + 5) len.toNat
    (mp.setSign value (header = 255), len.toNat + 5)

def encode (buffer : Cells 8) (value : V) (idx : ℕ) : Cells 8 × ℕ :=
  let size := mp.size value
  let limbs := mp.limbs value
  let negative := mp.sign value = -1
  if size = 1 then
    if ¬negative then
      if (limbs 0).toNat < 126 then (Function.update buffer idx ((limbs 0).setWidth 8), 1)
      else
        let buffer := Function.update buffer idx 252
        let (buffer, len) := serialize (· >>> ·) buffer (limbs 0) (idx + 2)
        (Function.update buffer (idx + 1) (BitVec.ofNat 8 len), 2 + len)
    else if (limbs 0).toNat < 127 then
      (Function.update buffer idx ((limbs 0 + 125).setWidth 8), 1)
    else
      let buffer := Function.update buffer idx 253
      let (buffer, len) := serialize (· >>> ·) buffer (limbs 0) (idx + 2)
      (Function.update buffer (idx + 1) (BitVec.ofNat 8 len), 2 + len)
  else if size ≤ maxLimbs then
    let (buffer, len) := mp.exportBits value buffer (idx + 2)
    let buffer := Function.update buffer idx (if negative then 253 else 252)
    (Function.update buffer (idx + 1) (BitVec.ofNat 8 len), 2 + len)
  else
    let (buffer, len) := mp.exportBits value buffer (idx + 5)
    let buffer := Function.update buffer idx (if negative then 255 else 254)
    let buffer := (List.range 4).foldl
      (fun buffer c => Function.update buffer (idx + 1 + c) (BitVec.ofNat 8 (len >>> (c <<< 3))))
      buffer
    (buffer, 5 + len)

def codec (value : V) : Codec (Cells 8) V where
  length := length mp
  lengthAt := lengthAt
  encode := encode mp
  decode := decode mp value

end BigIntegerCodec

end Memoria

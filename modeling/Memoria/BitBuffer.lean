import Memoria.Lib.ByteCounts
import Memoria.Lib.Cells
import Memoria.PkdAllocationMap

/-!
# Bit buffers

The tools that read and write bits and groups of bits in an array of cells. A cell has `w` bits: a
power of two in the source, so that `x & mask` and `x >> divisor` are `x % w` and `x / w` here.
Positions are natural numbers; where a difference of two `size_t` can be negative it is taken as
the machine takes it.
-/

namespace Memoria.BitBuffer

open Lib (Cells)

def sub64 (a b : ℕ) : ℕ := if b ≤ a then a - b else 2 ^ 64 + a - b

/-- A `size_t` passed as an `int32_t` length; the callees do with a negative length what they do with
length 0. -/
def int32 (n : ℕ) : ℕ := (BitVec.ofNat 32 n).toInt.toNat

def makeMask0 (w start length : ℕ) : BitVec w :=
  (BitVec.intMin w).sshiftRight (length - 1) >>> (w - length - start)

def makeMask (w start length : ℕ) : BitVec w :=
  if length > 0 then makeMask0 w start length else 0

/-- The counts of the bits of the bytes of a word, as `PopCnt`, `SelectFW` and `SelectBW` begin. -/
def byteCounts64 (arg : BitVec 64) : BitVec 64 :=
  let arg := arg - ((arg >>> 1) &&& 0x5555555555555555#64)
  let arg := ((arg >>> 2) &&& 0x3333333333333333#64) + (arg &&& 0x3333333333333333#64)
  (arg + (arg >>> 4)) &&& 0x0F0F0F0F0F0F0F0F#64

def byteSum64 (arg : BitVec 64) : ℕ :=
  let argl := (arg + (arg >>> 32)).setWidth 32
  let argl := argl + (argl >>> 16)
  ((argl + (argl >>> 8)) &&& 0x7F#32).toNat

def popCnt64 (arg : BitVec 64) : ℕ := byteSum64 (byteCounts64 arg)

def popCnt32 (v : BitVec 32) : ℕ :=
  let v := v - ((v >>> 1) &&& 0x55555555#32)
  let v := (v &&& 0x33333333#32) + ((v >>> 2) &&& 0x33333333#32)
  let v := (v + (v >>> 4)) &&& 0x0F0F0F0F#32
  let v := (v * 0x01010101#32) >>> 24
  v.toNat

inductive CellType where
  | u32
  | u64
  deriving DecidableEq

def CellType.bits : CellType → ℕ
  | u32 => 32
  | u64 => 64

def popCnt : (t : CellType) → BitVec t.bits → ℕ
  | .u32, v => popCnt32 v
  | .u64, v => popCnt64 v

def popCntRange (t : CellType) (arg : BitVec t.bits) (start length : ℕ) : ℕ :=
  popCnt t (arg &&& makeMask t.bits start length)

def popCount {t : CellType} (buffer : Cells t.bits) (start stop : ℕ) : ℕ :=
  let bitsize := t.bits
  let pre := bitsize - start % bitsize
  if start + pre > stop then
    popCntRange t (buffer (start / bitsize)) (start % bitsize) (int32 (sub64 stop start))
  else
    let total := popCntRange t (buffer (start / bitsize)) (start % bitsize) pre
    let total := (List.range' (start / bitsize + 1) (stop / bitsize - (start / bitsize + 1))).foldl
      (fun total c => total + popCnt t (buffer c)) total
    let suffix := stop % bitsize
    if suffix > 0 then total + popCntRange t (buffer (stop / bitsize)) 0 suffix else total

section Cells

variable {w : ℕ}

/-- The body that `FillOne` and `FillZero` share: `put cell mask` fills the bits of the mask in a
cell, and `all` is a filled cell. -/
def fill (put : BitVec w → BitVec w → BitVec w) (all : BitVec w) (buffer : Cells w)
    (start stop : ℕ) : Cells w :=
  let pre := w - start % w
  if start + pre > stop then
    let value := makeMask w (start % w) (int32 (sub64 stop start))
    Function.update buffer (start / w) (put (buffer (start / w)) value)
  else
    let buffer := Function.update buffer (start / w)
      (put (buffer (start / w)) (makeMask w (start % w) pre))
    let buffer := (List.range' (start / w + 1) (stop / w - (start / w + 1))).foldl
      (fun buffer c => Function.update buffer c all) buffer
    let suffix := stop % w
    if suffix > 0 then
      Function.update buffer (stop / w) (put (buffer (stop / w)) (makeMask w 0 suffix))
    else buffer

def fillOne (buffer : Cells w) (start stop : ℕ) : Cells w :=
  let ALL_ONES := makeMask w 0 w
  fill (fun cell mask => cell ||| mask) ALL_ONES buffer start stop

def fillZero (buffer : Cells w) (start stop : ℕ) : Cells w :=
  fill (fun cell mask => cell &&& ~~~mask) 0 buffer start stop

def setBits0 (buf : Cells w) (idx : ℕ) (bits : BitVec w) (nbits : ℕ) : Cells w :=
  if nbits > 0 then
    let haddr := idx / w
    let laddr := idx % w
    let bitmask := makeMask w laddr nbits
    let ref := buf haddr &&& ~~~bitmask
    Function.update buf haddr (ref ||| ((bits <<< laddr) &&& bitmask))
  else buf

def getBits0 (buf : Cells w) (idx nbits : ℕ) : BitVec w :=
  if nbits > 0 then
    let haddr := idx / w
    let laddr := idx % w
    let bitmask := makeMask w 0 nbits
    (buf haddr >>> laddr) &&& bitmask
  else 0

def setBits (buf : Cells w) (idx : ℕ) (bits : BitVec w) (nbits : ℕ) : Cells w :=
  let laddr := idx % w
  if laddr + nbits ≤ w then setBits0 buf idx bits nbits
  else
    let nbits1 := laddr + nbits - w
    let nbits0 := nbits - nbits1
    let buf := setBits0 buf idx bits nbits0
    if nbits1 > 0 then setBits0 buf (idx + nbits0) (bits >>> nbits0) nbits1 else buf

def getBits (buf : Cells w) (idx nbits : ℕ) : BitVec w :=
  let laddr := idx % w
  if laddr + nbits ≤ w then getBits0 buf idx nbits
  else
    let nbits1 := laddr + nbits - w
    let nbits0 := nbits - nbits1
    getBits0 buf idx nbits0 |||
      (if nbits1 > 0 then getBits0 buf (idx + nbits0) nbits1 <<< nbits0 else 0)

def getBits2 (buf : Cells w) (pos nbits : ℕ) : BitVec w × ℕ :=
  let idx := pos / w
  let pre := w - pos % w
  let bit_pos := pos % w
  let ONES := BitVec.allOnes w
  if nbits + bit_pos > w then
    let value := buf idx >>> bit_pos
    let suffix := nbits - pre
    (value ||| ((buf (idx + 1) &&& (ONES >>> (w - suffix))) <<< pre), pos + nbits)
  else ((buf idx >>> bit_pos) &&& (ONES >>> (w - nbits)), pos + nbits)

section Moving

variable {β : Type} [DecidableEq β]

def setGetBits (mem : β → Cells w) (src dst : β) (src_idx dst_idx nbits : ℕ) : β → Cells w :=
  Function.update mem dst (setBits (mem dst) dst_idx (getBits (mem src) src_idx nbits) nbits)

def moveCellsFW (src dst : β) : ℕ → ℕ → ℕ → (β → Cells w) → β → Cells w
  | 0, _, _, mem => mem
  | n + 1, cell, src_idx, mem =>
      moveCellsFW src dst n (cell + 1) (src_idx + w)
        (Function.update mem dst (Function.update (mem dst) cell (getBits (mem src) src_idx w)))

def moveBitsFW (mem : β → Cells w) (src dst : β) (src_idx dst_idx length : ℕ) : β → Cells w :=
  let extent := dst_idx + w - dst_idx % w
  if extent ≥ dst_idx + length then setGetBits mem src dst src_idx dst_idx length
  else
    let pre := extent - dst_idx
    let mem := setGetBits mem src dst src_idx dst_idx pre
    let src_idx := src_idx + pre
    let start_cell := extent / w
    let stop_cell := (dst_idx + length) / w
    let mem := moveCellsFW src dst (stop_cell - start_cell) start_cell src_idx mem
    let src_idx := src_idx + (stop_cell - start_cell) * w
    let suffix := (dst_idx + length) % w
    if suffix > 0 then setGetBits mem src dst src_idx (dst_idx + length - suffix) suffix else mem

def moveCellsBW (src dst : β) : ℕ → ℕ → ℕ → (β → Cells w) → β → Cells w
  | 0, _, _, mem => mem
  | n + 1, cell, src_idx, mem =>
      moveCellsBW src dst n (cell - 1) (src_idx - w)
        (Function.update mem dst
          (Function.update (mem dst) cell (getBits (mem src) (src_idx - w) w)))

def moveBitsBW (mem : β → Cells w) (src dst : β) (src_idx dst_idx length : ℕ) : β → Cells w :=
  let dst_to := dst_idx + length
  let extent := dst_to - dst_to % w
  if extent ≤ dst_idx then setGetBits mem src dst src_idx dst_idx length
  else
    let suffix := dst_to - extent
    let src_idx := src_idx + (length - suffix)
    let mem := setGetBits mem src dst src_idx extent suffix
    let start_cell := dst_idx / w
    let stop_cell := dst_to / w - 1
    let mem := moveCellsBW src dst (stop_cell - start_cell) stop_cell src_idx mem
    let src_idx := src_idx - (stop_cell - start_cell) * w
    let pre := w - dst_idx % w
    setGetBits mem src dst (src_idx - pre) dst_idx pre

def moveBits (mem : β → Cells w) (src dst : β) (src_idx dst_idx length : ℕ) : β → Cells w :=
  if dst_idx > src_idx then moveBitsBW mem src dst src_idx dst_idx length
  else moveBitsFW mem src dst src_idx dst_idx length

end Moving

end Cells

end Memoria.BitBuffer

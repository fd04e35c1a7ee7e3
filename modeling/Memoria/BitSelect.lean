import Memoria.BitBuffer
import Memoria.Lib.RankSelect

/-!
# Select in bit buffers

The position of the bit with a rank, forward and backward, for ones and for zeroes: a part of a cell,
whole cells and a part of a cell again, each searched through the counts of its bytes. The buffers
have cells of 32 or 64 bits; the complement of a narrower cell would be that of an `int`.
-/

namespace Memoria

structure BitBuffer.SelectResult where
  idx : ℕ
  rank : ℕ
  found : Bool
  deriving DecidableEq

namespace Bitmap

/-- What a search for the bit `b` with the given rank must report, when the `n` positions it looks
at are `pos 0`, `pos 1` and so on, and `stop` is where it gives up. -/
def selectResult (bitmap : Bitmap) (b : Bool) (pos : ℕ → ℕ) (n stop rank : ℕ) :
    BitBuffer.SelectResult :=
  let bits := (List.range n).map fun i => bitmap (pos i)
  match Lib.select b bits (rank - 1) with
  | some i => ⟨pos i, rank, true⟩
  | none => ⟨stop, bits.count b, false⟩

end Bitmap

namespace BitBuffer

open Lib (Cells)

/-- The inner loop of `SelectFW` and `SelectBW`, `n` rounds from `d` on with `r` of the rank so far:
`bitAt d` is whether the mask of round `d` meets the word. -/
def selectByte (bitAt : ℕ → Bool) (rank : ℕ) : ℕ → ℕ → ℕ → Option ℕ × ℕ
  | 0, _, r => (none, r)
  | n + 1, d, r =>
      let r := r + (bitAt d).toNat
      if r = rank then (some d, r) else selectByte bitAt rank n (d + 1) r

/-- The outer loop, `n` rounds from `j` on: `popcAt j` is the count of the byte of round `j`. The
result is the two rounds in which it returns. -/
def selectBytes (popcAt : ℕ → ℕ) (bitAt : ℕ → ℕ → Bool) (rank : ℕ) : ℕ → ℕ → ℕ → Option (ℕ × ℕ)
  | 0, _, _ => none
  | n + 1, j, r =>
      let popc := popcAt j
      if r + popc ≥ rank then
        match selectByte (bitAt j) rank 8 0 r with
        | (some d, _) => some (j, d)
        | (none, r) => selectBytes popcAt bitAt rank n (j + 1) r
      else selectBytes popcAt bitAt rank n (j + 1) (r + popc)

/-- `SelectFW` of a word: `shift` goes up and the mask from the low end of a byte. A result from 100
on is the count of a search in vain. -/
def selectFW (arg : BitVec 64) (rank : ℕ) : ℕ :=
  let v := byteCounts64 arg
  let fullrank_ := byteSum64 v
  let shift := fun j => 8 * j
  if fullrank_ ≥ rank then
    match selectBytes (fun j => ((v >>> shift j) &&& 0xFF#64).toNat)
      (fun j d => arg.getLsbD (shift j + d)) rank 8 0 0 with
    | some (j, d) => shift j + d
    | none => 100 + fullrank_
  else 100 + fullrank_

def selectBW (arg : BitVec 64) (rank : ℕ) : ℕ :=
  let v := byteCounts64 arg
  let fullrank_ := byteSum64 v
  let shift := fun j => 56 - 8 * j
  if fullrank_ ≥ rank then
    match selectBytes (fun j => ((v >>> shift j) &&& 0xFF#64).toNat)
      (fun j d => arg.getLsbD (shift j + 7 - d)) rank 8 0 0 with
    | some (j, d) => shift j + 7 - d
    | none => 0
  else 100 + fullrank_

/-- What the four functions do with the result of a word: they return the position, or add the count
to the total. -/
def tryWord (result : ℕ) (pos : ℕ → ℕ) (rank total : ℕ) : Except SelectResult ℕ :=
  if result < 100 then .error ⟨pos result, rank, true⟩ else .ok (total + (result - 100))

def reportAt (stop : ℕ) : Except SelectResult ℕ → SelectResult
  | .error found => found
  | .ok total => ⟨stop, total, false⟩

section Cells

variable {w : ℕ}

def getBitsNeg0 (buf : Cells w) (idx nbits : ℕ) : BitVec w :=
  let haddr := idx / w
  let laddr := idx % w
  let bitmask := makeMask w 0 nbits
  (~~~buf haddr >>> laddr) &&& bitmask

def getBits00 (buf : Cells w) (idx nbits : ℕ) : BitVec w :=
  let haddr := idx / w
  let laddr := idx % w
  let bitmask := makeMask w (w - nbits) nbits
  (buf haddr <<< (w - laddr - nbits)) &&& bitmask

def getBitsNeg00 (buf : Cells w) (idx nbits : ℕ) : BitVec w :=
  let haddr := idx / w
  let laddr := idx % w
  let bitmask := makeMask w (w - nbits) nbits
  (~~~buf haddr <<< (w - laddr - nbits)) &&& bitmask

def selectCellsFW (word : BitVec w → BitVec w) (buffer : Cells w) (rank : ℕ) :
    ℕ → ℕ → ℕ → Except SelectResult ℕ
  | 0, _, total => .ok total
  | n + 1, cell, total => do
      let total ← tryWord (selectFW ((word (buffer cell)).setWidth 64) (rank - total))
        (cell * w + ·) rank total
      selectCellsFW word buffer rank n (cell + 1) total

def selectCellsBW (word : BitVec w → BitVec w) (buffer : Cells w) (rank : ℕ) :
    ℕ → ℕ → ℕ → Except SelectResult ℕ
  | 0, _, total => .ok total
  | n + 1, cell, total => do
      let total ← tryWord (selectBW ((word (buffer cell)).setWidth 64) (rank - total))
        (cell * w + ·) rank total
      selectCellsBW word buffer rank n (cell - 1) total

end Cells

variable {t : CellType}

/-- The body of `Select1FW` and `Select0FW`, which differ in how they read a group (`get`) and a
cell (`word`). -/
def selectRangeFW (get : Cells t.bits → ℕ → ℕ → BitVec t.bits)
    (word : BitVec t.bits → BitVec t.bits) (buffer : Cells t.bits) (start stop rank : ℕ) :
    SelectResult :=
  let bitsize := t.bits
  let pre := bitsize - start % bitsize
  let (pre, suffix, start_cell, stop_cell) :=
    if start + pre ≥ stop then (sub64 stop start, 0, 0, 0)
    else (pre, stop % bitsize, (start + pre) / bitsize, stop / bitsize)
  reportAt stop (do
    let total ← tryWord (selectFW ((get buffer start (int32 pre)).setWidth 64) rank)
      (start + ·) rank 0
    let total ← selectCellsFW word buffer rank (stop_cell - start_cell) start_cell total
    if suffix > 0 then
      let start0 := stop_cell * bitsize
      tryWord (selectFW ((get buffer start0 suffix).setWidth 64) (rank - total))
        (start0 + ·) rank total
    else .ok total)

def select1FW (buffer : Cells t.bits) (start stop rank : ℕ) : SelectResult :=
  selectRangeFW getBits0 (fun cell => cell) buffer start stop rank

def select0FW (buffer : Cells t.bits) (start stop rank : ℕ) : SelectResult :=
  selectRangeFW getBitsNeg0 (fun cell => ~~~cell) buffer start stop rank

def selectRangeBW (get : Cells t.bits → ℕ → ℕ → BitVec t.bits)
    (word : BitVec t.bits → BitVec t.bits) (buffer : Cells t.bits) (start stop rank : ℕ) :
    SelectResult :=
  if sub64 start stop > 0 then
    let bitsize := t.bits
    let pre := start % bitsize
    let padding := stop % bitsize
    let (pre, suffix, start_cell, stop_cell) :=
      if start - pre ≤ stop then (sub64 start stop, 0, 0, 0)
      else (pre, bitsize - padding, (start - pre) / bitsize - 1, stop / bitsize)
    reportAt stop (do
      let total ← (if pre > 0 then
          tryWord (selectBW ((get buffer (sub64 start pre) (int32 pre)).setWidth 64) rank)
            (fun result => start + result - bitsize) rank 0
        else .ok 0)
      let total ← selectCellsBW word buffer rank (start_cell - stop_cell) start_cell total
      if suffix > 0 then
        tryWord (selectBW ((get buffer stop suffix).setWidth 64) (rank - total))
          (fun result => stop - padding + result) rank total
      else .ok total)
  else if rank > 0 then ⟨stop, 0, false⟩
  else ⟨stop, 0, true⟩

def select1BW (buffer : Cells t.bits) (start stop rank : ℕ) : SelectResult :=
  selectRangeBW getBits00 (fun cell => cell) buffer start stop rank

def select0BW (buffer : Cells t.bits) (start stop rank : ℕ) : SelectResult :=
  selectRangeBW getBitsNeg00 (fun cell => ~~~cell) buffer start stop rank

end BitBuffer

end Memoria

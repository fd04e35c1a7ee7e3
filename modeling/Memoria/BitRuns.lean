import Memoria.BitBuffer

/-!
# Runs of bits

How many bits of one value follow a position, or come before it. The tools look at whole cells where
they can and at groups of at most eight bits elsewhere, through tables of 256 entries. The `from`
and `to` of the source are `start` and `limit` here.
-/

namespace Memoria

namespace Bitmap

def runFw (bitmap : Bitmap) (bit : Bool) (start limit : ℕ) : ℕ :=
  Lib.leading (fun i => bitmap (start + i) == bit) (limit - start)

def runBw (bitmap : Bitmap) (bit : Bool) (start limit : ℕ) : ℕ :=
  Lib.leading (fun i => bitmap (start - 1 - i) == bit) (start - limit)

end Bitmap

namespace BitBuffer

open Lib (Cells)

def kPopCountFW_LUT : List ℕ := [
    0, 1, 0, 2, 0, 1, 0, 3, 0, 1, 0, 2, 0, 1, 0, 4, 0, 1, 0, 2, 0, 1, 0, 3, 0, 1, 0, 2, 0, 1, 0, 5,
    0, 1, 0, 2, 0, 1, 0, 3, 0, 1, 0, 2, 0, 1, 0, 4, 0, 1, 0, 2, 0, 1, 0, 3, 0, 1, 0, 2, 0, 1, 0, 6,
    0, 1, 0, 2, 0, 1, 0, 3, 0, 1, 0, 2, 0, 1, 0, 4, 0, 1, 0, 2, 0, 1, 0, 3, 0, 1, 0, 2, 0, 1, 0, 5,
    0, 1, 0, 2, 0, 1, 0, 3, 0, 1, 0, 2, 0, 1, 0, 4, 0, 1, 0, 2, 0, 1, 0, 3, 0, 1, 0, 2, 0, 1, 0, 7,
    0, 1, 0, 2, 0, 1, 0, 3, 0, 1, 0, 2, 0, 1, 0, 4, 0, 1, 0, 2, 0, 1, 0, 3, 0, 1, 0, 2, 0, 1, 0, 5,
    0, 1, 0, 2, 0, 1, 0, 3, 0, 1, 0, 2, 0, 1, 0, 4, 0, 1, 0, 2, 0, 1, 0, 3, 0, 1, 0, 2, 0, 1, 0, 6,
    0, 1, 0, 2, 0, 1, 0, 3, 0, 1, 0, 2, 0, 1, 0, 4, 0, 1, 0, 2, 0, 1, 0, 3, 0, 1, 0, 2, 0, 1, 0, 5,
    0, 1, 0, 2, 0, 1, 0, 3, 0, 1, 0, 2, 0, 1, 0, 4, 0, 1, 0, 2, 0, 1, 0, 3, 0, 1, 0, 2, 0, 1, 0, 8]

def kZeroCountFW_LUT : List ℕ := [
    8, 0, 1, 0, 2, 0, 1, 0, 3, 0, 1, 0, 2, 0, 1, 0, 4, 0, 1, 0, 2, 0, 1, 0, 3, 0, 1, 0, 2, 0, 1, 0,
    5, 0, 1, 0, 2, 0, 1, 0, 3, 0, 1, 0, 2, 0, 1, 0, 4, 0, 1, 0, 2, 0, 1, 0, 3, 0, 1, 0, 2, 0, 1, 0,
    6, 0, 1, 0, 2, 0, 1, 0, 3, 0, 1, 0, 2, 0, 1, 0, 4, 0, 1, 0, 2, 0, 1, 0, 3, 0, 1, 0, 2, 0, 1, 0,
    5, 0, 1, 0, 2, 0, 1, 0, 3, 0, 1, 0, 2, 0, 1, 0, 4, 0, 1, 0, 2, 0, 1, 0, 3, 0, 1, 0, 2, 0, 1, 0,
    7, 0, 1, 0, 2, 0, 1, 0, 3, 0, 1, 0, 2, 0, 1, 0, 4, 0, 1, 0, 2, 0, 1, 0, 3, 0, 1, 0, 2, 0, 1, 0,
    5, 0, 1, 0, 2, 0, 1, 0, 3, 0, 1, 0, 2, 0, 1, 0, 4, 0, 1, 0, 2, 0, 1, 0, 3, 0, 1, 0, 2, 0, 1, 0,
    6, 0, 1, 0, 2, 0, 1, 0, 3, 0, 1, 0, 2, 0, 1, 0, 4, 0, 1, 0, 2, 0, 1, 0, 3, 0, 1, 0, 2, 0, 1, 0,
    5, 0, 1, 0, 2, 0, 1, 0, 3, 0, 1, 0, 2, 0, 1, 0, 4, 0, 1, 0, 2, 0, 1, 0, 3, 0, 1, 0, 2, 0, 1, 0]

def kPopCountBW_LUT : List ℕ := [
    0, 0, 0, 0, 0, 0, 0, 0, 0, 0, 0, 0, 0, 0, 0, 0, 0, 0, 0, 0, 0, 0, 0, 0, 0, 0, 0, 0, 0, 0, 0, 0,
    0, 0, 0, 0, 0, 0, 0, 0, 0, 0, 0, 0, 0, 0, 0, 0, 0, 0, 0, 0, 0, 0, 0, 0, 0, 0, 0, 0, 0, 0, 0, 0,
    0, 0, 0, 0, 0, 0, 0, 0, 0, 0, 0, 0, 0, 0, 0, 0, 0, 0, 0, 0, 0, 0, 0, 0, 0, 0, 0, 0, 0, 0, 0, 0,
    0, 0, 0, 0, 0, 0, 0, 0, 0, 0, 0, 0, 0, 0, 0, 0, 0, 0, 0, 0, 0, 0, 0, 0, 0, 0, 0, 0, 0, 0, 0, 0,
    1, 1, 1, 1, 1, 1, 1, 1, 1, 1, 1, 1, 1, 1, 1, 1, 1, 1, 1, 1, 1, 1, 1, 1, 1, 1, 1, 1, 1, 1, 1, 1,
    1, 1, 1, 1, 1, 1, 1, 1, 1, 1, 1, 1, 1, 1, 1, 1, 1, 1, 1, 1, 1, 1, 1, 1, 1, 1, 1, 1, 1, 1, 1, 1,
    2, 2, 2, 2, 2, 2, 2, 2, 2, 2, 2, 2, 2, 2, 2, 2, 2, 2, 2, 2, 2, 2, 2, 2, 2, 2, 2, 2, 2, 2, 2, 2,
    3, 3, 3, 3, 3, 3, 3, 3, 3, 3, 3, 3, 3, 3, 3, 3, 4, 4, 4, 4, 4, 4, 4, 4, 5, 5, 5, 5, 6, 6, 7, 8]

def kZeroCountBW_LUT : List ℕ := [
    8, 7, 6, 6, 5, 5, 5, 5, 4, 4, 4, 4, 4, 4, 4, 4, 3, 3, 3, 3, 3, 3, 3, 3, 3, 3, 3, 3, 3, 3, 3, 3,
    2, 2, 2, 2, 2, 2, 2, 2, 2, 2, 2, 2, 2, 2, 2, 2, 2, 2, 2, 2, 2, 2, 2, 2, 2, 2, 2, 2, 2, 2, 2, 2,
    1, 1, 1, 1, 1, 1, 1, 1, 1, 1, 1, 1, 1, 1, 1, 1, 1, 1, 1, 1, 1, 1, 1, 1, 1, 1, 1, 1, 1, 1, 1, 1,
    1, 1, 1, 1, 1, 1, 1, 1, 1, 1, 1, 1, 1, 1, 1, 1, 1, 1, 1, 1, 1, 1, 1, 1, 1, 1, 1, 1, 1, 1, 1, 1,
    0, 0, 0, 0, 0, 0, 0, 0, 0, 0, 0, 0, 0, 0, 0, 0, 0, 0, 0, 0, 0, 0, 0, 0, 0, 0, 0, 0, 0, 0, 0, 0,
    0, 0, 0, 0, 0, 0, 0, 0, 0, 0, 0, 0, 0, 0, 0, 0, 0, 0, 0, 0, 0, 0, 0, 0, 0, 0, 0, 0, 0, 0, 0, 0,
    0, 0, 0, 0, 0, 0, 0, 0, 0, 0, 0, 0, 0, 0, 0, 0, 0, 0, 0, 0, 0, 0, 0, 0, 0, 0, 0, 0, 0, 0, 0, 0,
    0, 0, 0, 0, 0, 0, 0, 0, 0, 0, 0, 0, 0, 0, 0, 0, 0, 0, 0, 0, 0, 0, 0, 0, 0, 0, 0, 0, 0, 0, 0, 0]

variable {w : ℕ}

def countFwLoop (buffer : Cells w) (lut : List ℕ) : ℕ → ℕ → ℕ → ℕ × Bool
  | 0, _, cnt => (cnt, false)
  | n + 1, c, cnt =>
      let bits := lut.getD (getBits buffer c 8).toNat 0
      if bits < 8 then (cnt + bits, true) else countFwLoop buffer lut n (c + 8) (cnt + bits)

def countFw0 (buffer : Cells w) (start limit : ℕ) (lut : List ℕ) (zero : Bool) : ℕ :=
  let remainder := sub64 limit start % 8
  let (cnt, returned) := countFwLoop buffer lut ((sub64 limit remainder - start + 7) / 8) start 0
  if returned then cnt
  else if remainder > 0 then
    let tmp := (getBits buffer (sub64 limit remainder) remainder).toNat
    let tmp := if zero then tmp ||| 1 <<< remainder else tmp
    cnt + lut.getD tmp 0
  else cnt

/-- The loop of `CountFw` over `n` cells from `cell` on: the cell where it stops, and the count. -/
def fullCellsFw (buffer : Cells w) (value : BitVec w) : ℕ → ℕ → ℕ → ℕ × ℕ
  | 0, cell, cnt => (cell, cnt)
  | n + 1, cell, cnt =>
      if buffer cell = value then fullCellsFw buffer value n (cell + 1) (cnt + w) else (cell, cnt)

def countFw (buffer : Cells w) (start limit : ℕ) (lut : List ℕ) (zero : Bool) : ℕ :=
  let extent := start + w - start % w
  if extent ≥ limit then countFw0 buffer start limit lut zero
  else
    let cnt := countFw0 buffer start extent lut zero
    if cnt = extent - start then
      let start_cell := extent / w
      let stop_cell := limit / w
      let value := if zero then 0 else BitVec.allOnes w
      let (cell, cnt) := fullCellsFw buffer value (stop_cell - start_cell) start_cell cnt
      cnt + countFw0 buffer (cell * w) limit lut zero
    else cnt

def countOneFw (buffer : Cells w) (start limit : ℕ) : ℕ :=
  countFw buffer start limit kPopCountFW_LUT false

def countZeroFw (buffer : Cells w) (start limit : ℕ) : ℕ :=
  countFw buffer start limit kZeroCountFW_LUT true

def countBwLoop (buffer : Cells w) (lut : List ℕ) : ℕ → ℕ → ℕ → ℕ × Bool
  | 0, _, cnt => (cnt, false)
  | n + 1, c, cnt =>
      let bits := lut.getD (getBits buffer (c - 7) 8).toNat 0
      if bits < 8 then (cnt + bits, true) else countBwLoop buffer lut n (c - 8) (cnt + bits)

def countBw0 (buffer : Cells w) (start limit : ℕ) (lut : List ℕ) (zero : Bool) : ℕ :=
  if start > limit then
    let remainder := (start - limit) % 8
    let (cnt, returned) :=
      countBwLoop buffer lut ((start - 1 - (limit + remainder) + 7) / 8) (start - 1) 0
    if returned then cnt
    else if remainder > 0 then
      let tmp := (getBits buffer limit remainder).toNat
      let tmp :=
        if zero then (tmp <<< 1 ||| 1) <<< (7 - remainder) else tmp <<< (8 - remainder)
      cnt + lut.getD tmp 0
    else cnt
  else 0

/-- The loop of `CountBw` over `n` cells from `cell` down: the cell that stops it, and the count. -/
def fullCellsBw (buffer : Cells w) (value : BitVec w) : ℕ → ℕ → ℕ → Option ℕ × ℕ
  | 0, _, cnt => (none, cnt)
  | n + 1, cell, cnt =>
      if buffer cell = value then fullCellsBw buffer value n (cell - 1) (cnt + w)
      else (some cell, cnt)

def countBw (buffer : Cells w) (start limit : ℕ) (lut : List ℕ) (zero : Bool) : ℕ :=
  let extent := start - start % w
  if extent ≤ limit ∨ extent = 0 then countBw0 buffer start limit lut zero
  else
    let cnt := countBw0 buffer start extent lut zero
    if cnt = start - extent then
      let start_cell := extent / w - 1
      let stop_cell := limit / w
      let value := if zero then 0 else BitVec.allOnes w
      match fullCellsBw buffer value (start_cell + 1 - stop_cell) start_cell cnt with
      | (some cell, cnt) => cnt + countBw0 buffer ((cell + 1) * w) limit lut zero
      | (none, cnt) => cnt
    else cnt

def countOneBw (buffer : Cells w) (start limit : ℕ) : ℕ :=
  countBw buffer start limit kPopCountBW_LUT false

def countZeroBw (buffer : Cells w) (start limit : ℕ) : ℕ :=
  countBw buffer start limit kZeroCountBW_LUT true

def countBitFw (bit : Bool) (buffer : Cells w) (start limit : ℕ) : ℕ :=
  if bit then countOneFw buffer start limit else countZeroFw buffer start limit

def countBitBw (bit : Bool) (buffer : Cells w) (start limit : ℕ) : ℕ :=
  if bit then countOneBw buffer start limit else countZeroBw buffer start limit

/-- The loop of `CountTrailingZeroes` over `n` cells from `c` on: what is left of the first cell
above `pre`, and the length so far; `true` when it returned. -/
def trailingLoop (buf : Cells w) : ℕ → ℕ → ℕ → ℕ → ℕ × ℕ × Bool
  | 0, _, pre, length => (pre, length, false)
  | n + 1, c, pre, length =>
      let val := buf c >>> pre
      if val ≠ 0 then (pre, length + val.ctz.toNat, true)
      else trailingLoop buf n (c + 1) 0 (length + (w - pre))

/-- `CountTrailingZeroes` of a buffer. The one of a cell is an intrinsic of the compiler. -/
def countTrailingZeroes (buf : Cells w) (pos limit : ℕ) : ℕ :=
  let start_cell := pos / w
  let stop_cell := limit / w
  let (pre, length, returned) := trailingLoop buf (stop_cell - start_cell) start_cell (pos % w) 0
  if returned then length
  else
    let suffix := limit % w
    if suffix > 0 then
      let val := buf stop_cell >>> pre
      if val ≠ 0 then length + val.ctz.toNat else length + suffix
    else length

end BitBuffer

end Memoria

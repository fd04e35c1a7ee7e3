import Memoria.Lib.RankSelect
import Memoria.PkdAllocationMap

/-!
# The queries of an allocation map

The queries count and search the clear bits of a level. They take whole blocks from the index and
scan the rest of the bitmap word by word, 64 bits at a time. Ranks count from 1, and a rank that is
searched for from a position on is taken to stay below 2 ^ 31 with the rank of the position added.
-/

namespace Memoria

structure SelectResult where
  pos : ℕ
  rank : ℤ
  found : Bool
deriving DecidableEq

namespace Bitmap

def bits (bitmap : Bitmap) (start length : ℕ) : List Bool :=
  (List.range' start length).map bitmap

/-- `SelectFW` on the clear bits of a word, from bit `d` on, of which `r` lie before it. -/
def selectFW (rank : ℕ) : List Bool → ℕ → ℕ → Option ℕ
  | [], _, _ => none
  | bit :: word, d, r =>
    if r + (if bit then 0 else 1) = rank then some d
    else selectFW rank word (d + 1) (r + if bit then 0 else 1)

/-- The words that `Select0FW` reads, each as the position of its first bit in use and the number of
the bits in use: the rest of the first word, the whole words, and the beginning of the last one. A
range that ends before it starts has no bits in use. -/
def cells (start stop : ℕ) : List (ℕ × ℕ) :=
  let head := 64 - start % 64
  if stop ≤ start + head then [(start, stop - start)]
  else
    (start, head) ::
      ((List.range' ((start + head) / 64) (stop / 64 - (start + head) / 64)).map
        fun cell => (64 * cell, 64)) ++
      if 0 < stop % 64 then [(64 * (stop / 64), stop % 64)] else []

def selectCells (bitmap : Bitmap) (stop rank : ℕ) : List (ℕ × ℕ) → ℕ → SelectResult
  | [], total => ⟨stop, total, false⟩
  | (start, length) :: rest, total =>
    match selectFW (rank - total) (bitmap.bits start length) 0 0 with
    | some d => ⟨start + d, rank, true⟩
    | none => selectCells bitmap stop rank rest (total + (bitmap.bits start length).count false)

def select0FW (bitmap : Bitmap) (start stop rank : ℕ) : SelectResult :=
  selectCells bitmap stop rank (cells start stop) 0

/-- The trailing zeroes of a word shifted right by `shift`, or `none` if it has no other bits. -/
def trailingZeroes (bitmap : Bitmap) (cell shift : ℕ) : Option ℕ :=
  (List.range (64 - shift)).find? fun d => bitmap (64 * cell + shift + d)

/-- The loop of `CountTrailingZeroes` over the `n` words before the one with the limit. That one is
shifted too, but all of its bits below the limit are added if no bit of it is set. -/
def countCells (bitmap : Bitmap) (limit : ℕ) : ℕ → ℕ → ℕ → ℕ → ℕ
  | 0, cell, shift, length =>
    if 0 < limit % 64 then
      match bitmap.trailingZeroes cell shift with
      | some d => length + d
      | none => length + limit % 64
    else length
  | n + 1, cell, shift, length =>
    match bitmap.trailingZeroes cell shift with
    | some d => length + d
    | none => countCells bitmap limit n (cell + 1) 0 (length + (64 - shift))

def countTrailingZeroes (bitmap : Bitmap) (pos limit : ℕ) : ℕ :=
  bitmap.countCells limit (limit / 64 - pos / 64) (pos / 64) (pos % 64) 0

def zeroes (bitmap : Bitmap) (start stop : ℕ) : ℕ :=
  (bitmap.bits start (stop - start)).count false

/-- The clear bit of a rank among those from `start` on, or the end and the number of all of them. -/
def scanSelect (bitmap : Bitmap) (start stop rank : ℕ) : SelectResult :=
  match Lib.select false (bitmap.bits start (stop - start)) (rank - 1) with
  | some d => ⟨start + d, rank, true⟩
  | none => ⟨stop, bitmap.zeroes start stop, false⟩

def scanCount (bitmap : Bitmap) (start stop : ℕ) : ℕ :=
  ((bitmap.bits start (stop - start)).takeWhile (! ·)).length

end Bitmap

namespace PkdAllocationMap

structure LevelResult where
  pos : ℕ
  bm_size : ℕ
  rank : ℤ
deriving DecidableEq

def levelSize (map : PkdAllocationMap) (level : ℕ) : ℕ :=
  bitmapLevelSize map.size level

def sum (map : PkdAllocationMap) (level : ℕ) : ℕ :=
  let bitmap_size := map.levelSize level
  let index_size := indexLevelSize bitmap_size
  if 0 < index_size then ((List.range index_size).map (map.index level)).sum
  else bitmap_size - (map.symbols level).popCount 0 bitmap_size

/-- The loop of `select0` over `n` blocks from `c` on: where it stops, and the sum it has then. -/
def selectLoop (idxs : ℕ → ℕ) (rank : ℕ) : ℕ → ℕ → ℕ → ℕ × ℕ
  | 0, c, sum => (c, sum)
  | n + 1, c, sum =>
    if rank ≤ sum + idxs c then (c, sum + idxs c)
    else selectLoop idxs rank n (c + 1) (sum + idxs c)

def selectStart (map : PkdAllocationMap) (rank level : ℕ) : ℕ × ℕ :=
  selectLoop (map.index level) rank (indexLevelSize (map.levelSize level)) 0 0

def select0 (map : PkdAllocationMap) (rank level : ℕ) : LevelResult :=
  let bm_size := map.levelSize level
  let start := map.selectStart rank level
  let result := (map.symbols level).select0FW (start.1 * ValuesPerBranch) bm_size rank
  ⟨result.pos, bm_size, result.rank + start.2⟩

def rank (map : PkdAllocationMap) (pos level : ℕ) : ℕ :=
  let block_start := pos / ValuesPerBranch * ValuesPerBranch
  let ones := (map.symbols level).popCount block_start pos
  let zeroes := (pos - block_start) - ones
  if 0 < block_start then
    zeroes + ((List.range (pos / ValuesPerBranch)).map (map.index level)).sum
  else zeroes

def selectFW (map : PkdAllocationMap) (rank level : ℕ) : SelectResult :=
  let res := map.select0 rank level
  ⟨res.pos <<< level, res.rank, res.pos < res.bm_size⟩

def selectFWFrom (map : PkdAllocationMap) (start rank level : ℕ) : SelectResult :=
  let startrank := map.rank start level
  let result := map.selectFW (startrank + rank) level
  { result with rank := result.rank - startrank }

def countLoop (bitmap : Bitmap) (idxs : ℕ → ℕ) (bm_size : ℕ) : ℕ → ℕ → ℕ → ℕ
  | 0, _, sum => sum
  | n + 1, ii, sum =>
    let index_block_start := ii * ValuesPerBranch
    let index_block_limit := min ((ii + 1) * ValuesPerBranch) bm_size
    let cell_value := idxs ii
    if cell_value = index_block_limit - index_block_start then
      countLoop bitmap idxs bm_size n (ii + 1) (sum + cell_value)
    else sum + bitmap.countTrailingZeroes index_block_start index_block_limit

def blockLimit (map : PkdAllocationMap) (start level : ℕ) : ℕ :=
  min ((start / ValuesPerBranch + 1) * ValuesPerBranch) (map.levelSize level)

def countFW (map : PkdAllocationMap) (start level : ℕ) : ℕ :=
  let bm_size := map.levelSize level
  let block_limit := map.blockLimit start level
  let bitmap := map.symbols level
  let zeroes := bitmap.countTrailingZeroes start block_limit
  if zeroes < block_limit - start then zeroes
  else
    let index_start := start / ValuesPerBranch + 1
    zeroes + countLoop bitmap (map.index level) bm_size (indexLevelSize bm_size - index_start)
      index_start 0

inductive Query where
  | sum
  | rank (pos : ℕ)
  | select0 (rank : ℕ)
  | selectFW (start rank : ℕ)
  | countFW (start : ℕ)

def Query.InRange (map : PkdAllocationMap) (level : ℕ) : Query → Prop
  | .sum => True
  | .rank pos => pos ≤ map.levelSize level
  | .select0 r => 1 ≤ r
  | .selectFW start r => start ≤ map.levelSize level ∧ 1 ≤ r
  | .countFW start => start ≤ map.levelSize level

def Query.Agrees (map : PkdAllocationMap) (level : ℕ) : Query → Prop
  | .sum => map.sum level = (map.symbols level).zeroes 0 (map.levelSize level)
  | .rank pos => map.rank pos level = (map.symbols level).zeroes 0 pos
  | .select0 r =>
      let scanned := (map.symbols level).scanSelect 0 (map.levelSize level) r
      map.select0 r level = ⟨scanned.pos, map.levelSize level, scanned.rank⟩
  | .selectFW start r =>
      let scanned := (map.symbols level).scanSelect start (map.levelSize level) r
      map.selectFWFrom start r level = { scanned with pos := scanned.pos <<< level }
  | .countFW start =>
      map.countFW start level = (map.symbols level).scanCount start (map.levelSize level)

def IndexedAt (map : PkdAllocationMap) (level : ℕ) : Prop :=
  ∀ b < indexLevelSize (map.levelSize level),
    map.index level b = (List.range' (b * ValuesPerBranch)
      (min ValuesPerBranch (map.levelSize level - b * ValuesPerBranch))).countP
        fun i => !map.symbols level i

/-- The end of a level of one full block is not taken for the start of another one, or the entry
read for the block is right even though the level has no index. -/
def RankOk (map : PkdAllocationMap) (level pos : ℕ) : Prop :=
  pos < ValuesPerBranch ∨ ValuesPerBranch < map.levelSize level ∨
    map.index level 0 = (map.symbols level).zeroes 0 ValuesPerBranch

/-- A search is right in a level without index and where there is nothing to find; a count is right
if the limit is the end of a word, or there is a set bit before the limit or right at it, or the
count comes from the words before and finds no set bit behind the limit. -/
def Query.Ok (map : PkdAllocationMap) (level : ℕ) : Query → Prop
  | .sum => True
  | .rank pos => map.RankOk level pos
  | .select0 r => map.levelSize level ≤ ValuesPerBranch ∨
      (map.symbols level).zeroes 0 (map.levelSize level) < r
  | .selectFW start r => map.RankOk level start ∧ (map.levelSize level ≤ ValuesPerBranch ∨
      (map.symbols level).zeroes start (map.levelSize level) < r)
  | .countFW start =>
      let limit := map.blockLimit start level
      limit % 64 = 0 ∨ (∃ i, start ≤ i ∧ i ≤ limit ∧ map.symbols level i = true) ∨
        (start ≤ 64 * (limit / 64) ∧
          ∀ i, limit ≤ i → i < 64 * (limit / 64) + 64 → map.symbols level i = false)

end PkdAllocationMap

end Memoria

import Mathlib.Data.BitVec
import Mathlib.Logic.Function.Iterate
import Memoria.Lib.Buckets

/-!
# The packed allocation map

A `PkdAllocationMap` keeps nine bitmaps: bit `i` of level `l + 1` stands for bits `2 * i` and
`2 * i + 1` of level `l`, and level 0 has one bit for each unit. A bitmap is a function from
positions to bits here. The loops that rebuild the upper levels work on 64-bit words, and so do
they here; a word that reaches beyond the size of its level has whatever bits are there. Sizes and
positions are `int32_t` in the source: those of a call, with what it adds to them, are taken to stay
below 2 ^ 31.
-/

namespace Memoria

abbrev Bitmap := ℕ → Bool

namespace Bitmap

def fillOne (bitmap : Bitmap) (start stop : ℕ) : Bitmap := fun i =>
  if start ≤ i ∧ i < stop then true else bitmap i

def fillZero (bitmap : Bitmap) (start stop : ℕ) : Bitmap := fun i =>
  if start ≤ i ∧ i < stop then false else bitmap i

def popCount (bitmap : Bitmap) (start stop : ℕ) : ℕ :=
  (List.range' start (stop - start)).countP bitmap

def atom (bitmap : Bitmap) (k : ℕ) : BitVec 64 :=
  (BitVec.ofBoolListLE ((List.range 64).map fun j => bitmap (64 * k + j))).setWidth 64

def setAtom (bitmap : Bitmap) (k : ℕ) (word : BitVec 64) : Bitmap := fun i =>
  if i / 64 = k then word.getLsbD (i % 64) else bitmap i

end Bitmap

structure PkdAllocationMap where
  size : ℕ
  capacity : ℕ
  symbols : ℕ → Bitmap
  index : ℕ → ℕ → ℕ

namespace PkdAllocationMap

open Lib (divUp)

def ValuesPerBranch : ℕ := 512

def Indexes : ℕ := 9

def bitmapLevelSize (l0_bitmap_size level : ℕ) : ℕ :=
  l0_bitmap_size >>> level

def indexLevelSize (bitmap_size : ℕ) : ℕ :=
  if bitmap_size > ValuesPerBranch then divUp bitmap_size ValuesPerBranch else 0

def initBySize (bitmap_size : ℕ) : PkdAllocationMap :=
  ⟨0, bitmap_size, fun _ _ => false, fun _ _ => 0⟩

/-- The inner loop of `rebuild_bitmaps` and of `reindex`: the words of a level are taken in pairs,
`bms` and `bms + 1`, into word `bms / 2` of the next level. -/
def orAtoms (src tgt : Bitmap) (bitmap_atoms_size : ℕ) : Bitmap :=
  (List.range (divUp bitmap_atoms_size 2)).foldl (fun tgt k =>
    tgt.setAtom k (src.atom (2 * k) ||| src.atom (2 * k + 1) <<< 32)) tgt

def rebuildLoop : ℕ → ℕ → ℕ → (ℕ → Bitmap) → ℕ → Bitmap
  | 0, _, _, symbols => symbols
  | n + 1, c, local_bitmap_size, symbols =>
      rebuildLoop n (c + 1) (local_bitmap_size / 2)
        (Function.update symbols (c + 1)
          (orAtoms (symbols c) (symbols (c + 1)) (local_bitmap_size / 64)))

def rebuildBitmaps (map : PkdAllocationMap) (level_from : ℕ) : PkdAllocationMap :=
  { map with
    symbols := rebuildLoop (Indexes - 1 - level_from) level_from
      (bitmapLevelSize map.size level_from) map.symbols }

def indexEntry (bitmap : Bitmap) (local_bitmap_size icnt : ℕ) : ℕ :=
  let bi := icnt * ValuesPerBranch
  let limit := if bi + ValuesPerBranch ≤ local_bitmap_size then bi + ValuesPerBranch
    else local_bitmap_size
  (limit - bi) - bitmap.popCount bi limit

def reindexLevels (map : PkdAllocationMap) : PkdAllocationMap :=
  { map with
    index := fun c icnt =>
      let local_bitmap_size := bitmapLevelSize map.size c
      if c < Indexes ∧ icnt < indexLevelSize local_bitmap_size then
        indexEntry (map.symbols c) local_bitmap_size icnt
      else map.index c icnt }

def reindex (map : PkdAllocationMap) (recompute_bitmaps : Bool) : PkdAllocationMap :=
  if recompute_bitmaps then (map.rebuildBitmaps 0).reindexLevels else map.reindexLevels

def enlarge (map : PkdAllocationMap) (size : ℕ) : Option PkdAllocationMap :=
  if size % ValuesPerBranch ≠ 0 then none
  else if size + map.size > map.capacity then none
  else
    some (reindex { map with
      symbols := Function.update map.symbols 0
        ((map.symbols 0).fillZero map.size (map.size + size))
      size := map.size + size } true)

def fillDown (fill : Bitmap → ℕ → ℕ → Bitmap) :
    ℕ → ℕ → ℕ → (ℕ → Bitmap) → ℕ → Bitmap
  | 0, start, stop, symbols => Function.update symbols 0 (fill (symbols 0) start stop)
  | ll + 1, start, stop, symbols =>
      fillDown fill ll (start * 2) (stop * 2)
        (Function.update symbols (ll + 1) (fill (symbols (ll + 1)) start stop))

def fillUp : ℕ → ℕ → ℕ → ℕ → (ℕ → Bitmap) → ℕ → Bitmap
  | 0, _, _, _, symbols => symbols
  | n + 1, ll, start, stop, symbols =>
      let start := start / 2
      let stop := divUp stop 2
      fillUp n (ll + 1) start stop
        (Function.update symbols ll ((symbols ll).fillOne start stop))

def setBits (map : PkdAllocationMap) (level idx size : ℕ) : PkdAllocationMap :=
  { map with
    symbols := fillUp (Indexes - 1 - level) (level + 1) idx (idx + size)
      (fillDown Bitmap.fillOne level idx (idx + size) map.symbols) }

def getBit (map : PkdAllocationMap) (level idx : ℕ) : Bool :=
  map.symbols level idx

def clearBits (map : PkdAllocationMap) (level idx size : ℕ) : PkdAllocationMap :=
  reindex (rebuildBitmaps { map with
    symbols := fillDown Bitmap.fillZero level idx (idx + size) map.symbols } level) false

inductive Op where
  | enlarge (size : ℕ)
  | setBits (level idx size : ℕ)
  | clearBits (level idx size : ℕ)
  | reindex (recompute_bitmaps : Bool)

def InRange (map : PkdAllocationMap) (level idx size : ℕ) : Prop :=
  level < Indexes ∧ idx + size ≤ bitmapLevelSize map.size level

instance (map : PkdAllocationMap) (level idx size : ℕ) : Decidable (map.InRange level idx size) :=
  inferInstanceAs (Decidable (_ ∧ _))

/-- A call. An error of `enlarge` leaves the map as it is; bits outside of the map are not set or
cleared by any caller. -/
def step (map : PkdAllocationMap) : Op → Option PkdAllocationMap
  | .enlarge size => some ((map.enlarge size).getD map)
  | .setBits level idx size =>
      if map.InRange level idx size then some (map.setBits level idx size) else none
  | .clearBits level idx size =>
      if map.InRange level idx size then some (map.clearBits level idx size) else none
  | .reindex recompute_bitmaps => some (map.reindex recompute_bitmaps)

def Consistent (map : PkdAllocationMap) : Prop :=
  ∀ l < Indexes - 1, ∀ i < bitmapLevelSize map.size (l + 1),
    map.symbols (l + 1) i = (map.symbols l (2 * i) || map.symbols l (2 * i + 1))

def Indexed (map : PkdAllocationMap) : Prop :=
  ∀ l < Indexes, ∀ b < indexLevelSize (bitmapLevelSize map.size l),
    map.index l b = (List.range' (b * ValuesPerBranch)
      (min ValuesPerBranch (bitmapLevelSize map.size l - b * ValuesPerBranch))).countP
        fun i => !map.symbols l i

def Within (level idx size u : ℕ) : Prop :=
  idx * 2 ^ level ≤ u ∧ u < (idx + size) * 2 ^ level

instance (level idx size u : ℕ) : Decidable (Within level idx size u) :=
  inferInstanceAs (Decidable (_ ∧ _))

def Outcome (map : PkdAllocationMap) (op : Op) : Prop :=
  ∀ map', step map op = some map' →
    match op with
    | .enlarge size =>
        if size % ValuesPerBranch = 0 ∧ size + map.size ≤ map.capacity then
          map'.size = map.size + size ∧ Indexed map' ∧
            ∀ u < map'.size, map'.symbols 0 u = if u < map.size then map.symbols 0 u else false
        else map' = map
    | .setBits level idx size => map'.size = map.size ∧
        ∀ u < map.size, map'.symbols 0 u = if Within level idx size u then true else map.symbols 0 u
    | .clearBits level idx size => map'.size = map.size ∧ Indexed map' ∧
        ∀ u < map.size, map'.symbols 0 u = if Within level idx size u then false else map.symbols 0 u
    | .reindex _ => map'.size = map.size ∧ Indexed map' ∧
        ∀ u < map.size, map'.symbols 0 u = map.symbols 0 u

def up (bitmap : Bitmap) : Bitmap := fun i =>
  bitmap (2 * i) || bitmap (2 * i + 1)

/-- A level of `size` bits, `bitmap`, is one that the word loop gathers right into the level above,
which holds `old`. Bit `r` of word `q` is rewritten from bits `128 * q + r` and, in the upper half,
`128 * q + 32 + r`; the bits behind the last pair of words are not rewritten. -/
def Gathers (bitmap old : Bitmap) (size : ℕ) : Prop :=
  ∀ i < size / 2,
    if i / 64 < divUp (size / 64) 2 then
      (bitmap (128 * (i / 64) + i % 64) ||
        (decide (32 ≤ i % 64) && bitmap (128 * (i / 64) + 32 + i % 64))) = up bitmap i
    else old i = up bitmap i

/-- Every level from `level` on, of a map of `size` units, is gathered right into the one above. -/
def RebuildOk (symbols : ℕ → Bitmap) (level size : ℕ) : Prop :=
  ∀ k, level + k < Indexes - 1 →
    Gathers (up^[k] (symbols level)) (symbols (level + k + 1)) (bitmapLevelSize size (level + k))

/-- The levels that a call rebuilds are gathered right, and a call that sets no bit at an index
finds the bits that the loop over the upper levels sets there already set. -/
def StepOk (map : PkdAllocationMap) : Op → Prop
  | .enlarge size => size % ValuesPerBranch = 0 → size + map.size ≤ map.capacity →
      RebuildOk (Function.update map.symbols 0
        ((map.symbols 0).fillZero map.size (map.size + size))) 0 (map.size + size)
  | .setBits level idx size => map.InRange level idx size → size = 0 →
      ∀ k, level + k < Indexes → ¬ 2 ^ k ∣ idx → map.symbols (level + k) (idx / 2 ^ k) = true
  | .clearBits level idx size => map.InRange level idx size →
      RebuildOk (Function.update map.symbols level
        ((map.symbols level).fillZero idx (idx + size))) level map.size
  | .reindex recompute_bitmaps => recompute_bitmaps = true → RebuildOk map.symbols 0 map.size

end PkdAllocationMap

end Memoria

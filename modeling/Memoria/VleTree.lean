import Memoria.Lib.Buckets
import Memoria.Lib.Segment
import Mathlib.Algebra.Group.Basic
import Mathlib.Algebra.Group.Nat.Defs
import Mathlib.Logic.Function.Basic

namespace Memoria.VleTree

open Lib

/-! Packed trees of variable-length codes: `PkdVQTree`, with a stream for each column, and
`PkdVDTree`, with one stream for all of them. -/

/-- A code is read from the units that stand at its start and behind. An offset within a window has
`bitsPerOffset` bits, which are enough for what is left of a code that starts before the window. -/
structure Codec (Data Value : Type) where
  encode : Value → List Data
  decode : List Data → Value
  length : List Data → Nat
  bitsPerOffset : Nat
  decode_encode : ∀ value rest, decode (encode value ++ rest) = value
  length_encode : ∀ value rest, length (encode value ++ rest) = (encode value).length
  encode_ne_nil : ∀ value, encode value ≠ []
  length_le_offset : ∀ value, (encode value).length ≤ 2 ^ bitsPerOffset

structure Params (Data Value Index : Type) where
  codec : Codec Data Value
  index : Value → Index
  valuesPerBranch : Nat
  branchingFactor : Nat
  segment : Nat → Nat
  junk : Data
  code_lt : ∀ value, (codec.encode value).length < valuesPerBranch
  two_le : 2 ≤ branchingFactor
  le_segment : ∀ size, size ≤ segment size

namespace I7

def bytes : Nat → Nat → List UInt8
  | 0, _ => []
  | fuel + 1, value => if 0 < value then .ofNat (value % 256) :: bytes fuel (value / 256) else []

def ofBytes : List UInt8 → Nat
  | [] => 0
  | byte :: bytes => byte.toNat + 256 * ofBytes bytes

def encode (value : Nat) : List UInt8 :=
  if value < 128 then [.ofNat value]
  else .ofNat ((bytes 8 value).length + 128) :: bytes 8 value

def decode : List UInt8 → Nat
  | [] => 0
  | byte :: units => if byte < 128 then byte.toNat else ofBytes (units.take (byte.toNat - 128))

def length : List UInt8 → Nat
  | [] => 0
  | byte :: _ => if byte < 128 then 1 else byte.toNat - 128 + 1

theorem length_bytes_le (fuel value : Nat) : (bytes fuel value).length ≤ fuel := by
  induction fuel generalizing value with
  | zero => exact Nat.le_refl 0
  | succ fuel ih =>
      rw [bytes]
      split_ifs
      · exact Nat.succ_le_succ (ih _)
      · exact Nat.zero_le _

theorem ofBytes_bytes (fuel : Nat) {value : Nat} (hvalue : value < 256 ^ fuel) :
    ofBytes (bytes fuel value) = value := by
  induction fuel generalizing value with
  | zero => exact (Nat.lt_one_iff.mp hvalue).symm
  | succ fuel ih =>
      rw [bytes]
      split_ifs with hpos
      · rw [ofBytes, ih (Nat.div_lt_of_lt_mul (by rwa [Nat.pow_succ'] at hvalue)),
          UInt8.toNat_ofNat_of_lt' (Nat.mod_lt _ (by decide))]
        exact Nat.mod_add_div value 256
      · exact (Nat.eq_zero_of_not_pos hpos).symm

/-- A wide value has its number of bytes in the first unit. -/
theorem toNat_head (value : Nat) :
    (UInt8.ofNat ((bytes 8 value).length + 128)).toNat = (bytes 8 value).length + 128 := by
  have hle := length_bytes_le 8 value
  exact UInt8.toNat_ofNat_of_lt' (Nat.lt_of_le_of_lt (Nat.add_le_add_right hle 128) (by decide))

theorem not_head_lt (value : Nat) : ¬ UInt8.ofNat ((bytes 8 value).length + 128) < 128 := by
  rw [UInt8.lt_iff_toNat_lt, toNat_head]
  exact Nat.not_lt.mpr (Nat.le_add_left _ _)

theorem head_lt {value : Nat} (hsmall : value < 128) :
    UInt8.ofNat value < 128 ∧ (UInt8.ofNat value).toNat = value := by
  have hvalue : (UInt8.ofNat value).toNat = value :=
    UInt8.toNat_ofNat_of_lt' (Nat.lt_trans hsmall (by decide))
  rw [UInt8.lt_iff_toNat_lt, hvalue]
  exact ⟨hsmall, rfl⟩

theorem decode_encode {value : Nat} (hvalue : value < 256 ^ 8) (rest : List UInt8) :
    decode (encode value ++ rest) = value := by
  rw [encode]
  split_ifs with hsmall
  · obtain ⟨hlt, hnat⟩ := head_lt hsmall
    rw [List.singleton_append, decode, if_pos hlt, hnat]
  · rw [List.cons_append, decode, if_neg (not_head_lt value), toNat_head, Nat.add_sub_cancel,
      List.take_left, ofBytes_bytes 8 hvalue]

theorem length_encode (value : Nat) (rest : List UInt8) :
    length (encode value ++ rest) = (encode value).length := by
  rw [encode]
  split_ifs with hsmall
  · rw [List.singleton_append, length, if_pos (head_lt hsmall).1, List.length_singleton]
  · rw [List.cons_append, length, if_neg (not_head_lt value), toNat_head, Nat.add_sub_cancel,
      List.length_cons]

theorem length_encode_le (value : Nat) : (encode value).length ≤ 9 := by
  rw [encode]
  split_ifs
  · exact Nat.le_add_left 1 8
  · exact Nat.succ_le_succ (length_bytes_le 8 value)

def codec : Codec UInt8 (Fin (2 ^ 63)) where
  encode value := encode value
  decode units := Fin.ofNat (2 ^ 63) (decode units)
  length := length
  bitsPerOffset := 4
  decode_encode value rest := by
    have hwide : (value : Nat) < 256 ^ 8 := Nat.lt_trans value.isLt (by decide)
    rw [decode_encode hwide]
    exact Fin.ofNat_val_eq_self value
  length_encode value := length_encode value
  encode_ne_nil value := by
    rw [encode]
    split_ifs
    · exact List.cons_ne_nil _ _
    · exact List.cons_ne_nil _ _
  length_le_offset value := Nat.le_trans (length_encode_le value) (by decide)

theorem length_encode_lt_window (value : Fin (2 ^ 63)) : (codec.encode value).length < 128 :=
  Nat.lt_of_le_of_lt (length_encode_le value) (by decide)

theorem two_le_branchingFactor : 2 ≤ 32 := by decide

theorem le_words (size : Nat) : size ≤ divUp size 8 * 8 := by
  rw [divUp]
  split_ifs <;> omega

def params : Params UInt8 (Fin (2 ^ 63)) Int where
  codec := codec
  index value := (value : Nat)
  valuesPerBranch := 128
  branchingFactor := 32
  segment size := divUp size 8 * 8
  junk := 0
  code_lt := length_encode_lt_window
  two_le := two_le_branchingFactor
  le_segment := le_words

end I7

/-- The loop of `compute_tree_layout`. A level has fewer entries than the one below it, so `fuel` is
the number of those. -/
def upperSizes (branchingFactor : Nat) : Nat → Nat → List Nat
  | 0, _ => []
  | fuel + 1, size =>
    let upper := divUp size branchingFactor
    if 1 < upper then upper :: upperSizes branchingFactor fuel upper else [upper]

structure Stream (Data Index : Type) where
  dataSize : Nat
  values : List Data
  offsets : List Nat
  valueIndex : List (List Index)
  sizeIndex : List (List Nat)

structure Window (Index : Type) where
  offset : Nat
  valueSum : Index
  sizeCnt : Nat

namespace Stream

variable {Data Value Index : Type}

def empty : Stream Data Index := ⟨0, [], [], [], []⟩

section Locate

def seek (idx : Nat) : List Nat → Nat → Nat → Option Nat × Nat
  | [], _, sum => (none, sum)
  | count :: counts, c, sum =>
    if idx < sum + count then (some c, sum) else seek idx counts (c + 1) (sum + count)

def locateIndex (branchingFactor idx : Nat) : List (List Nat) → Nat → Nat → Option Nat × Nat
  | [], _, sum => (none, sum)
  | level :: levels, branchStart, sum =>
    match seek idx (level.drop branchStart) branchStart sum with
    | (none, sum) => (none, sum)
    | (some c, sum) =>
      if levels = [] then (some c, sum)
      else locateIndex branchingFactor idx levels (c * branchingFactor) sum

/-- The loop over the codes from `pos` on. A code has a unit at least, so `dataSize` turns are
enough. -/
def skipCodes (codec : Codec Data Value) (values : List Data) (dataSize : Nat) :
    Nat → Nat → Nat → Nat
  | 0, _, pos => pos
  | _ + 1, 0, pos => pos
  | fuel + 1, count + 1, pos =>
    if pos < dataSize then
      skipCodes codec values dataSize fuel count (pos + codec.length (values.drop pos))
    else pos

def locate (params : Params Data Value Index) (stream : Stream Data Index) (idx : Nat) : Nat :=
  if 0 < stream.dataSize then
    let found :=
      if params.valuesPerBranch < stream.dataSize then
        locateIndex params.branchingFactor idx (stream.sizeIndex.drop 1) 0 0
      else (some 0, 0)
    match found with
    | (some window, count) =>
      skipCodes params.codec stream.values stream.dataSize stream.dataSize (idx - count)
        (window * params.valuesPerBranch + stream.offsets.getD window 0)
    | (none, _) => stream.dataSize
  else 0

end Locate

section Reindex

variable [AddCommMonoid Index] (params : Params Data Value Index)

def scanWindows (values : List Data) (dataSize : Nat) :
    Nat → Nat → Nat → Window Index → List (Window Index)
  | 0, _, _, current => [current]
  | fuel + 1, pos, threshold, current =>
    if pos < dataSize then
      let units := values.drop pos
      let value := params.index (params.codec.decode units)
      let next := pos + params.codec.length units
      if threshold ≤ pos then
        current :: scanWindows values dataSize fuel next (threshold + params.valuesPerBranch)
          ⟨(pos - threshold) % 2 ^ params.codec.bitsPerOffset, 0 + value, 0 + 1⟩
      else
        scanWindows values dataSize fuel next threshold
          ⟨current.offset, current.valueSum + value, current.sizeCnt + 1⟩
    else [current]

def padded {α : Type} (zero : α) (entries : List α) (size : Nat) : List α :=
  entries ++ List.replicate (size - entries.length) zero

def upperLevel {M : Type} [AddCommMonoid M] (branchingFactor : Nat) (level : List M) (size : Nat) :
    List M :=
  (List.range size).map fun i => ((level.drop (i * branchingFactor)).take branchingFactor).sum

def upperLevels {M : Type} [AddCommMonoid M] (branchingFactor : Nat) (level : List M) :
    List Nat → List (List M)
  | [] => [level]
  | size :: sizes =>
    level :: upperLevels branchingFactor (upperLevel branchingFactor level size) sizes

def reindexBlock (stream : Stream Data Index) : Stream Data Index :=
  let size := divUp stream.dataSize params.valuesPerBranch
  if params.valuesPerBranch < stream.dataSize then
    let windows :=
      scanWindows params stream.values stream.dataSize stream.dataSize 0 params.valuesPerBranch
        ⟨0, 0, 0⟩
    let sizes := upperSizes params.branchingFactor size size
    { stream with
      offsets := padded 0 (windows.map Window.offset) size
      valueIndex :=
        (upperLevels params.branchingFactor (padded 0 (windows.map Window.valueSum) size)
          sizes).reverse
      sizeIndex :=
        (upperLevels params.branchingFactor (padded 0 (windows.map Window.sizeCnt) size)
          sizes).reverse }
  else
    { stream with
      offsets := List.replicate size 0
      valueIndex := []
      sizeIndex := [] }

end Reindex

section Space

variable (params : Params Data Value Index)

/-- The values segment for another size of the data. The other segments are written by the
`reindex_block` that ends every update. -/
def resize (stream : Stream Data Index) (newDataSize : Nat) : Stream Data Index :=
  { stream with
    values := resizeSegment params.junk stream.values (params.segment newDataSize) }

def insertSpace (stream : Stream Data Index) (start length : Nat) : Stream Data Index :=
  let resized := stream.resize params (stream.dataSize + length)
  { resized with
    values := moveUnits resized.values start (start + length) (stream.dataSize - start)
    dataSize := stream.dataSize + length }

def removeSpace (stream : Stream Data Index) (start length : Nat) : Stream Data Index :=
  let stop := start + length
  let moved :=
    { stream with values := moveUnits stream.values stop start (stream.dataSize - stop) }
  { moved.resize params (stream.dataSize - length) with dataSize := stream.dataSize - length }

def encodeAll (codec : Codec Data Value) (values : List Data) : Nat → List Value → List Data
  | _, [] => values
  | pos, value :: rest =>
    encodeAll codec (overwrite values pos (codec.encode value))
      (pos + (codec.encode value).length) rest

def totalLength (codec : Codec Data Value) (values : List Value) : Nat :=
  (values.map fun value => (codec.encode value).length).sum

def copyTo (source target : Stream Data Index) (start pos length : Nat) : Stream Data Index :=
  { target with values := overwrite target.values pos ((source.values.drop start).take length) }

def sizeRoom (stream : Stream Data Index) (pos oldLength newLength : Nat) : Stream Data Index :=
  if oldLength < newLength then stream.insertSpace params pos (newLength - oldLength)
  else if newLength < oldLength then stream.removeSpace params pos (oldLength - newLength)
  else stream

variable [AddCommMonoid Index] [DecidableEq Value]

def updateValue (stream : Stream Data Index) (idx : Nat) (update : Value → Value) :
    Stream Data Index :=
  let pos := stream.locate params idx
  let old := params.codec.decode (stream.values.drop pos)
  let oldLength := params.codec.length (stream.values.drop pos)
  let new := update old
  if new = old then stream
  else
    let code := params.codec.encode new
    let sized := stream.sizeRoom params pos oldLength code.length
    { sized with values := overwrite sized.values pos code }.reindexBlock params

end Space

end Stream

structure QuickTree (Data Index : Type) (blocks : Nat) where
  size : Nat
  columns : Fin blocks → Stream Data Index

namespace QuickTree

variable {Data Value Index : Type} {blocks : Nat} (params : Params Data Value Index)

def empty : QuickTree Data Index blocks := ⟨0, fun _ => Stream.empty⟩

def value (tree : QuickTree Data Index blocks) (block : Fin blocks) (idx : Nat) : Option Value :=
  let column := tree.columns block
  let pos := column.locate params idx
  if idx < tree.size ∧ pos < column.dataSize then
    some (params.codec.decode (column.values.drop pos))
  else none

variable [AddCommMonoid Index]

def reindex (tree : QuickTree Data Index blocks) : QuickTree Data Index blocks :=
  { tree with columns := fun block => (tree.columns block).reindexBlock params }

def insertEntries (tree : QuickTree Data Index blocks) (pos : Nat)
    (entries : List (Fin blocks → Value)) : Option (QuickTree Data Index blocks) :=
  if pos ≤ tree.size then
    let insertColumn (block : Fin blocks) : Stream Data Index :=
      let column := tree.columns block
      let values := entries.map fun entry => entry block
      let start := column.locate params pos
      let room := column.insertSpace params start (Stream.totalLength params.codec values)
      { room with values := Stream.encodeAll params.codec room.values start values }
    some (reindex params ⟨tree.size + entries.length, insertColumn⟩)
  else none

/-- Positions that are not in order, or behind the end, are not checked by the source, and not
defined here. -/
def remove (tree : QuickTree Data Index blocks) (start stop : Nat) :
    Option (QuickTree Data Index blocks) :=
  if start ≤ stop ∧ stop ≤ tree.size then
    let removeColumn (block : Fin blocks) : Stream Data Index :=
      let column := tree.columns block
      let startPos := column.locate params start
      let stopPos := column.locate params stop
      column.removeSpace params startPos (stopPos - startPos)
    some (reindex params ⟨tree.size - (stop - start), removeColumn⟩)
  else none

def updateValue [DecidableEq Value] (tree : QuickTree Data Index blocks) (block : Fin blocks)
    (idx : Nat) (update : Value → Value) : Option (QuickTree Data Index blocks) :=
  if idx < tree.size then
    some
      { tree with
        columns :=
          Function.update tree.columns block ((tree.columns block).updateValue params idx update) }
  else none

def splitTo (tree other : QuickTree Data Index blocks) (idx : Nat) :
    Option (QuickTree Data Index blocks × QuickTree Data Index blocks) := do
  let copyColumn (block : Fin blocks) : Stream Data Index :=
    let column := tree.columns block
    let start := column.locate params idx
    let length := column.dataSize - start
    column.copyTo ((other.columns block).insertSpace params 0 length) start 0 length
  let tree' ← tree.remove params idx tree.size
  return (tree', reindex params ⟨other.size + (tree.size - idx), copyColumn⟩)

def mergeWith (tree other : QuickTree Data Index blocks) : QuickTree Data Index blocks :=
  let copyColumn (block : Fin blocks) : Stream Data Index :=
    let column := tree.columns block
    let start := (other.columns block).dataSize
    column.copyTo ((other.columns block).insertSpace params start column.dataSize) 0 start
      column.dataSize
  reindex params ⟨other.size + tree.size, copyColumn⟩

end QuickTree

structure DenseTree (Data Index : Type) (blocks : Nat) where
  metadataSize : Nat
  stream : Stream Data Index

namespace DenseTree

variable {Data Value Index : Type} {blocks : Nat} (params : Params Data Value Index)

def empty : DenseTree Data Index blocks := ⟨0, Stream.empty⟩

def size (tree : DenseTree Data Index blocks) : Nat := tree.metadataSize / blocks

/-- The position of a row in a column; the row behind the last one is the start of the next
column. -/
def locate (tree : DenseTree Data Index blocks) (block : Fin blocks) (idx : Nat) : Nat :=
  tree.stream.locate params (tree.size * block + idx)

def value (tree : DenseTree Data Index blocks) (block : Fin blocks) (idx : Nat) : Option Value :=
  let pos := tree.locate params block idx
  if idx < tree.size ∧ pos < tree.stream.dataSize then
    some (params.codec.decode (tree.stream.values.drop pos))
  else none

/-- The loop of `insert_entries`: positions of the columns before the insertion, with what is
inserted there. -/
def insertColumns (codec : Codec Data Value) :
    List (Nat × List Value) → Nat → Stream Data Index → Stream Data Index
  | [], _, stream => stream
  | (position, values) :: columns, shift, stream =>
    let pos := position + shift
    let length := Stream.totalLength codec values
    let moved := moveUnits stream.values pos (pos + length) (stream.dataSize - pos)
    insertColumns codec columns (shift + length)
      { stream with
        values := Stream.encodeAll codec moved pos values
        dataSize := stream.dataSize + length }

def removeColumns : List (Nat × Nat) → Stream Data Index → Stream Data Index
  | [], stream => stream
  | (start, length) :: columns, stream =>
    let stream := removeColumns columns stream
    let stop := start + length
    { stream with
      values := moveUnits stream.values stop start (stream.dataSize - stop)
      dataSize := stream.dataSize - length }

structure ColumnCopy where
  before : Nat
  start : Nat
  length : Nat
  behind : Nat

def copyColumns (source : Stream Data Index) :
    List ColumnCopy → Nat → Stream Data Index → Stream Data Index
  | [], _, target => target
  | copy :: copies, pos, target =>
    let pos := pos + copy.before
    let room := target.insertSpace params pos copy.length
    copyColumns source copies (pos + copy.length + copy.behind)
      (source.copyTo room copy.start pos copy.length)

def columnLength (tree : DenseTree Data Index blocks) (block : Fin blocks) : Nat :=
  tree.locate params block tree.size - tree.locate params block 0

variable [AddCommMonoid Index]

/-- A position behind the end is not checked by the source, and not defined here. -/
def insertEntries (tree : DenseTree Data Index blocks) (idx : Nat)
    (entries : List (Fin blocks → Value)) : Option (DenseTree Data Index blocks) :=
  if idx ≤ tree.size then
    let columns := (List.finRange blocks).map fun block =>
      (tree.locate params block idx, entries.map fun entry => entry block)
    let total := (columns.map fun column => Stream.totalLength params.codec column.2).sum
    let resized := tree.stream.resize params (tree.stream.dataSize + total)
    some
      { metadataSize := tree.metadataSize + entries.length * blocks
        stream := (insertColumns params.codec columns 0 resized).reindexBlock params }
  else none

def remove (tree : DenseTree Data Index blocks) (start stop : Nat) :
    Option (DenseTree Data Index blocks) :=
  if start ≤ stop ∧ stop ≤ tree.size then
    if start < stop then
      let columns := (List.finRange blocks).map fun block =>
        let startPos := tree.locate params block start
        (startPos, tree.locate params block stop - startPos)
      let removed := removeColumns columns tree.stream
      some
        { metadataSize := tree.metadataSize - (stop - start) * blocks
          stream := (removed.resize params removed.dataSize).reindexBlock params }
    else some tree
  else none

def updateValue [DecidableEq Value] (tree : DenseTree Data Index blocks) (block : Fin blocks)
    (idx : Nat) (update : Value → Value) : Option (DenseTree Data Index blocks) :=
  if idx < tree.size then
    some { tree with stream := tree.stream.updateValue params (block * tree.size + idx) update }
  else none

def splitTo (tree other : DenseTree Data Index blocks) (idx : Nat) :
    Option (DenseTree Data Index blocks × DenseTree Data Index blocks) := do
  let copies := (List.finRange blocks).map fun block =>
    let start := tree.locate params block idx
    { before := 0
      start := start
      length := tree.locate params block tree.size - start
      behind := other.columnLength params block }
  let other' : DenseTree Data Index blocks :=
    { metadataSize := other.metadataSize + (tree.size - idx) * blocks
      stream := (copyColumns params tree.stream copies 0 other.stream).reindexBlock params }
  let tree' ← tree.remove params idx tree.size
  return (tree', other')

def mergeWith (tree other : DenseTree Data Index blocks) : DenseTree Data Index blocks :=
  let copies := (List.finRange blocks).map fun block =>
    { before := other.columnLength params block
      start := tree.locate params block 0
      length := tree.columnLength params block
      behind := 0 }
  { metadataSize := other.metadataSize + tree.size * blocks
    stream := (copyColumns params tree.stream copies 0 other.stream).reindexBlock params }

end DenseTree

structure TreeOps (Tree Value : Type) (blocks : Nat) where
  insertEntries : Tree → Nat → List (Fin blocks → Value) → Option Tree
  remove : Tree → Nat → Nat → Option Tree
  updateValue : Tree → Fin blocks → Nat → (Value → Value) → Option Tree
  splitTo : Tree → Tree → Nat → Option (Tree × Tree)
  mergeWith : Tree → Tree → Tree

section Ops

variable {Data Value Index : Type} [AddCommMonoid Index] [DecidableEq Value]
  (params : Params Data Value Index) (blocks : Nat)

def QuickTree.ops : TreeOps (QuickTree Data Index blocks) Value blocks where
  insertEntries := QuickTree.insertEntries params
  remove := QuickTree.remove params
  updateValue := QuickTree.updateValue params
  splitTo := QuickTree.splitTo params
  mergeWith := QuickTree.mergeWith params

def DenseTree.ops : TreeOps (DenseTree Data Index blocks) Value blocks where
  insertEntries := DenseTree.insertEntries params
  remove := DenseTree.remove params
  updateValue := DenseTree.updateValue params
  splitTo := DenseTree.splitTo params
  mergeWith := DenseTree.mergeWith params

end Ops

inductive Op (ι Value : Type) (blocks : Nat) where
  | insertEntries (tree : ι) (pos : Nat) (entries : List (Fin blocks → Value))
  | remove (tree : ι) (start stop : Nat)
  | updateValue (tree : ι) (block : Fin blocks) (idx : Nat) (update : Value → Value)
  | splitTo (tree other : ι) (idx : Nat)
  | mergeWith (tree other : ι)

def step {Tree Value ι : Type} {blocks : Nat} [DecidableEq ι] (ops : TreeOps Tree Value blocks)
    (trees : ι → Tree) : Op ι Value blocks → Option (ι → Tree)
  | .insertEntries t pos entries => do
    return Function.update trees t (← ops.insertEntries (trees t) pos entries)
  | .remove t start stop => do
    return Function.update trees t (← ops.remove (trees t) start stop)
  | .updateValue t block idx update => do
    return Function.update trees t (← ops.updateValue (trees t) block idx update)
  | .splitTo t other idx =>
    if t = other then none
    else do
      let (tree, moved) ← ops.splitTo (trees t) (trees other) idx
      return Function.update (Function.update trees t tree) other moved
  | .mergeWith t other =>
    if t = other then none
    else some (Function.update trees other (ops.mergeWith (trees t) (trees other)))

end Memoria.VleTree

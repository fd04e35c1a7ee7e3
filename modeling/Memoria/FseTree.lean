import Memoria.VleTree

/-!
# Packed trees of values of a fixed size

`PkdFQTree`. Every column has a segment of values and a segment with the levels of its index. Space
that a segment gets when it grows holds `junk`; `none` stands for an error.
-/

namespace Memoria.FseTree

open Lib

variable {α : Type} {blocks : Nat}

structure Params (α : Type) where
  valuesPerBranch : Nat
  branchingFactor : Nat
  segment : Nat → Nat
  fits : Nat → Bool
  junk : α
  values_pos : 0 < valuesPerBranch
  two_le : 2 ≤ branchingFactor
  le_segment : ∀ size, size ≤ segment size

structure Column (α : Type) where
  values : List α
  index : List α

structure Tree (α : Type) (blocks : Nat) where
  size : Nat
  indexSize : Nat
  maxSize : Nat
  columns : Fin blocks → Column α

abbrev Row (α : Type) (blocks : Nat) : Type := Fin blocks → α

section Layout

variable (params : Params α)

def levelSizes (size : Nat) : List Nat :=
  if size ≤ params.valuesPerBranch then []
  else
    let lowest := divUp size params.valuesPerBranch
    (lowest :: VleTree.upperSizes params.branchingFactor lowest lowest).reverse

def levelStart (sizes : List Nat) (level : Nat) : Nat := (sizes.take level).sum

def indexSize (capacity : Nat) : Nat := (levelSizes params capacity).sum

end Layout

section Reindex

variable [AddCommMonoid α] (params : Params α)

def lowestLevel (values : List α) (size levelSize : Nat) : List α :=
  (List.range levelSize).map fun i =>
    let start := i * params.valuesPerBranch
    let windowEnd := (i + 1) * params.valuesPerBranch
    let stop := if windowEnd ≤ size then windowEnd else size
    ((values.drop start).take (stop - start)).sum

def upperLevel (index : List α) (currentStart currentSize levelSize : Nat) : List α :=
  (List.range levelSize).map fun i =>
    let start := i * params.branchingFactor + currentStart
    let windowEnd := (i + 1) * params.branchingFactor
    let stop := (if windowEnd ≤ currentSize then windowEnd else currentSize) + currentStart
    ((index.drop start).take (stop - start)).sum

def reindexUpper (sizes : List Nat) : Nat → List α → List α
  | 0, index => index
  | level + 1, index =>
    reindexUpper sizes level
      (overwrite index (levelStart sizes level)
        (upperLevel params index (levelStart sizes (level + 1)) (sizes.getD (level + 1) 0)
          (sizes.getD level 0)))

def reindexBlock (sizes : List Nat) (size : Nat) (column : Column α) : Column α :=
  let lowest := sizes.length - 1
  let index := overwrite column.index (levelStart sizes lowest)
    (lowestLevel params column.values size (sizes.getD lowest 0))
  { column with index := reindexUpper params sizes lowest index }

def Tree.reindex (tree : Tree α blocks) : Tree α blocks :=
  let sizes := levelSizes params tree.maxSize
  { tree with
    indexSize := sizes.sum
    columns := fun block =>
      if 0 < sizes.length then reindexBlock params sizes tree.size (tree.columns block)
      else tree.columns block }

end Reindex

namespace Tree

section Space

variable (params : Params α)

def resize (tree : Tree α blocks) (newDataSize : Nat) : Option (Tree α blocks) :=
  if params.fits newDataSize then
    let newIndexSize := FseTree.indexSize params newDataSize
    some
      { tree with
        maxSize := newDataSize
        indexSize := newIndexSize
        columns := fun block =>
          let column := tree.columns block
          { values := resizeSegment params.junk column.values (params.segment newDataSize)
            index := resizeSegment params.junk column.index (params.segment newIndexSize) } }
  else none

variable [Zero α]

def init (capacity : Nat) : Tree α blocks :=
  { size := 0
    indexSize := FseTree.indexSize params capacity
    maxSize := capacity
    columns := fun _ =>
      { values := List.replicate (params.segment capacity) 0
        index := List.replicate (params.segment (FseTree.indexSize params capacity)) 0 } }

/-- A place behind the last row is not checked by the source, and not defined here. -/
def insertSpace (tree : Tree α blocks) (idx roomLength : Nat) : Option (Tree α blocks) :=
  if tree.size < idx then none
  else do
    let capacity := tree.maxSize - tree.size
    let tree ← (if capacity < roomLength then
        tree.resize params (tree.maxSize + (roomLength - capacity))
      else some tree)
    some
      { tree with
        size := tree.size + roomLength
        columns := fun block =>
          let column := tree.columns block
          let moved := moveUnits column.values idx (idx + roomLength) (tree.size - idx)
          { column with values := overwrite moved idx (List.replicate roomLength 0) } }

end Space

def copyTo (tree other : Tree α blocks) (copyFrom count target : Nat) : Tree α blocks :=
  { other with
    columns := fun block =>
      let values := ((tree.columns block).values.drop copyFrom).take count
      { other.columns block with
        values := overwrite (other.columns block).values target values } }

variable [AddCommMonoid α] (params : Params α)

/-- A start behind the stop is not checked by the source, and not defined here. -/
def remove (tree : Tree α blocks) (start stop : Nat) : Option (Tree α blocks) :=
  if start ≤ stop ∧ stop ≤ tree.size then do
    let roomLength := stop - start
    let moved :=
      { tree with
        size := tree.size - roomLength
        columns := fun block =>
          let column := tree.columns block
          let values := moveUnits column.values stop start (tree.size - stop)
          { column with
            values := overwrite values (start + (tree.size - stop))
              (List.replicate roomLength 0) } }
    let resized ← moved.resize params (tree.maxSize - roomLength)
    some (resized.reindex params)
  else none

def splitTo (tree other : Tree α blocks) (idx : Nat) : Option (Tree α blocks × Tree α blocks) :=
  let total := tree.size - idx
  if 0 < total then do
    let other ← other.insertSpace params 0 total
    let other := (tree.copyTo other idx total 0).reindex params
    let tree ← tree.remove params idx tree.size
    some (tree.reindex params, other)
  else some (tree, other)

def mergeWith (tree other : Tree α blocks) : Option (Tree α blocks) := do
  let otherSize := other.size
  let other ← other.insertSpace params otherSize tree.size
  some ((tree.copyTo other 0 tree.size otherSize).reindex params)

def insertEntries (tree : Tree α blocks) (rowAt : Nat) (entries : List (Row α blocks))
    (reindex : Bool) : Option (Tree α blocks) := do
  let tree ← tree.insertSpace params rowAt entries.length
  let filled :=
    { tree with
      columns := fun block =>
        let column := tree.columns block
        { column with
          values := overwrite column.values rowAt (entries.map fun entry => entry block) } }
  some (if reindex then filled.reindex params else filled)

end Tree

inductive Op (ι α : Type) (blocks : Nat) where
  | insertEntries (t : ι) (rowAt : Nat) (entries : List (Row α blocks)) (reindex : Bool)
  | remove (t : ι) (start stop : Nat)
  | splitTo (t other : ι) (idx : Nat)
  | mergeWith (t other : ι)
  | reindex (t : ι)

structure Session (ι α : Type) (blocks : Nat) where
  trees : ι → Tree α blocks
  rows : ι → List (Row α blocks)
  deferred : ι → Bool

namespace Session

variable {ι : Type} [DecidableEq ι]

def put (s : Session ι α blocks) (t : ι) (tree : Tree α blocks) (rows : List (Row α blocks))
    (deferred : Bool) : Session ι α blocks :=
  { trees := Function.update s.trees t tree
    rows := Function.update s.rows t rows
    deferred := Function.update s.deferred t deferred }

variable [AddCommMonoid α] (params : Params α)

def start (capacity : ι → Nat) : Session ι α blocks :=
  { trees := fun t => Tree.init params (capacity t)
    rows := fun _ => []
    deferred := fun _ => false }

def step (s : Session ι α blocks) : Op ι α blocks → Option (Session ι α blocks)
  | .insertEntries t rowAt entries reindex => do
      let tree ← (s.trees t).insertEntries params rowAt entries reindex
      let rows := (s.rows t).take rowAt ++ entries ++ (s.rows t).drop rowAt
      some (s.put t tree rows (!reindex))
  | .remove t start stop => do
      let tree ← (s.trees t).remove params start stop
      some (s.put t tree ((s.rows t).take start ++ (s.rows t).drop stop) false)
  | .splitTo t other idx =>
      if t = other then none
      else do
        let (tree, otherTree) ← (s.trees t).splitTo params (s.trees other) idx
        -- without a row from `idx` on nothing is done
        let same := decide ((s.trees t).size ≤ idx)
        some ((s.put t tree ((s.rows t).take idx) (same && s.deferred t)).put other otherTree
          ((s.rows t).drop idx ++ s.rows other) (same && s.deferred other))
  | .mergeWith t other =>
      if t = other then none
      else do
        let otherTree ← (s.trees t).mergeWith params (s.trees other)
        some (s.put other otherTree (s.rows other ++ s.rows t) false)
  | .reindex t => some (s.put t ((s.trees t).reindex params) (s.rows t) false)

end Session

structure Tree.Carries (params : Params α) (tree : Tree α blocks) (rows : List (Row α blocks)) :
    Prop where
  size_eq : tree.size = rows.length
  size_le : tree.size ≤ tree.maxSize
  indexSize_eq : tree.indexSize = FseTree.indexSize params tree.maxSize
  values : ∀ block, ∃ rest, (tree.columns block).values = (rows.map fun row => row block) ++ rest
  values_room : ∀ block, tree.maxSize ≤ (tree.columns block).values.length
  index_room : ∀ block, tree.indexSize ≤ (tree.columns block).index.length

def levelEntries (sizes : List Nat) (index : List α) (level : Nat) : List α :=
  (index.drop (levelStart sizes level)).take (sizes.getD level 0)

def blockSums [AddCommMonoid α] (width : Nat) (entries : List α) (count : Nat) : List α :=
  (List.range count).map fun i => ((entries.drop (i * width)).take width).sum

/-- Every level of an index has the block sums of the level below it, and the lowest level those of
the values. -/
def IndexOf [AddCommMonoid α] (params : Params α) (sizes : List Nat) (values index : List α) : Prop :=
  ∀ level < sizes.length, levelEntries sizes index level =
    if level + 1 = sizes.length then
      blockSums params.valuesPerBranch values (sizes.getD level 0)
    else
      blockSums params.branchingFactor (levelEntries sizes index (level + 1)) (sizes.getD level 0)

def Tree.Indexed [AddCommMonoid α] (params : Params α) (tree : Tree α blocks)
    (rows : List (Row α blocks)) : Prop :=
  ∀ block, IndexOf params (levelSizes params tree.maxSize) (rows.map fun row => row block)
    (tree.columns block).index

end Memoria.FseTree

import Mathlib.Order.Defs.LinearOrder
import Memoria.FseTree
import Memoria.Lib.RangeSums

/-!
# Searches in packed trees of values of a fixed size

The searches and sums of `PkdFQTree`. `ValuesPerBranch` and `BranchingFactor` are powers of two in
the source, and its masks and shifts are divisions here. `none` is an index walk that does not end
within its fuel. Sums are those of the type of the values: the values of a column, and the target of
a search with the sum in front of its start, are taken to add up without overflow.
-/

namespace Memoria.FseTree

open Lib

variable {α : Type} {blocks : ℕ}

def findGEWalker [LinearOrder α] (target : α) : α → Bool := fun sum => decide (target ≤ sum)

def findGTWalker [LinearOrder α] (target : α) : α → Bool := fun sum => decide (target < sum)

structure Found (α : Type) where
  localPos : ℤ
  sum : α
deriving DecidableEq

section Loops

variable [AddCommMonoid α] (hits : α → Bool) (values : List α)

def findFrom (size start : ℕ) (sum : α) : Found α :=
  let found := sumScan hits sum ((values.take size).drop start)
  let c := start + found.1
  ⟨if c < size then c else size, found.2⟩

def findBackFrom (start : ℤ) (sum : α) : Found α :=
  let found := sumScan hits sum (values.take (start + 1).toNat).reverse
  let c := start - found.1
  ⟨if 0 ≤ c then c else -1, found.2⟩

end Loops

def indexEntry [Zero α] (sizes : List ℕ) (index : List α) (level c : ℕ) : α :=
  index.getD (levelStart sizes level + c) 0

namespace Tree

section Finds

variable [AddCommMonoid α] (params : Params α) (tree : Tree α blocks) (block : Fin blocks)

def find (hits : α → Bool) : Found α :=
  let values := (tree.columns block).values
  let index := (tree.columns block).index
  -- `element_size` of the index segment
  if index.length = 0 then findFrom hits values tree.size 0 0
  else
    let sizes := levelSizes params tree.maxSize
    let found := findIndex (fun sum entry => hits (sum + entry)) (· + ·) params.branchingFactor sizes
      (indexEntry sizes index) 0
    match found.1 with
    | some idx => findFrom hits values tree.size (idx * params.valuesPerBranch) found.2
    | none => ⟨tree.size, found.2⟩

def walkFw (hits : α → Bool) (fuel start : ℕ) : Option (Found α) :=
  let values := (tree.columns block).values
  if start + params.valuesPerBranch * 2 ≥ tree.size then
    some (findFrom hits values tree.size start 0)
  else
    let windowEnd := (start / params.valuesPerBranch + 1) * params.valuesPerBranch
    let window := sumScan hits 0 ((values.take windowEnd).drop start)
    if start + window.1 < windowEnd then some ⟨(start + window.1 : ℕ), window.2⟩
    else do
      let sizes := levelSizes params tree.maxSize
      let found ← walkIndexFw (fun sum entry => hits (sum + entry)) (· + ·) params.branchingFactor
        sizes (indexEntry sizes (tree.columns block).index) fuel
        (windowEnd / params.valuesPerBranch) (sizes.length - 1) window.2
      match found.1 with
      | some idx => some (findFrom hits values tree.size (idx * params.valuesPerBranch) found.2)
      | none => some ⟨tree.size, found.2⟩

def walkBw (hits : α → Bool) (fuel : ℕ) (start : ℤ) : Option (Found α) :=
  let values := (tree.columns block).values
  if start < params.valuesPerBranch * 2 then some (findBackFrom hits values start 0)
  else
    let windowEnd := start / params.valuesPerBranch * params.valuesPerBranch - 1
    let window := sumScan hits 0
      ((values.take (start + 1).toNat).drop (windowEnd + 1).toNat).reverse
    let c := start - window.1
    if c > windowEnd then some ⟨c, window.2⟩
    else do
      let sizes := levelSizes params tree.maxSize
      let found ← walkIndexBw (fun sum entry => hits (sum + entry)) (· + ·) params.branchingFactor
        sizes (indexEntry sizes (tree.columns block).index) fuel
        (windowEnd / params.valuesPerBranch) (sizes.length - 1) window.2
      match found.1 with
      | some idx =>
          some (findBackFrom hits values ((idx + 1) * params.valuesPerBranch - 1) found.2)
      | none => some ⟨-1, found.2⟩

variable [LinearOrder α]

def findGe (value : α) : Found α := tree.find params block (findGEWalker value)

def findGt (value : α) : Found α := tree.find params block (findGTWalker value)

def findGeFw (fuel start : ℕ) (value : α) : Option (Found α) :=
  tree.walkFw params block (findGEWalker value) fuel start

def findGtFw (fuel start : ℕ) (value : α) : Option (Found α) :=
  tree.walkFw params block (findGTWalker value) fuel start

def findGeBw (fuel : ℕ) (start : ℤ) (value : α) : Option (Found α) :=
  tree.walkBw params block (findGEWalker value) fuel start

def findGtBw (fuel : ℕ) (start : ℤ) (value : α) : Option (Found α) :=
  tree.walkBw params block (findGTWalker value) fuel start

end Finds

end Tree

section Sums

variable [AddCommMonoid α] (params : Params α)

def sumEntries (sizes : List ℕ) (index : List α) (level start stop : ℕ) : α :=
  ((List.range' start (stop - start)).map (indexEntry sizes index level)).sum

def sumIndex (sizes : List ℕ) (index : List α) : ℕ → ℕ → ℕ → α → Option α
  | level, start, stop, sum =>
    let branchEnd := (start / params.branchingFactor + 1) * params.branchingFactor
    let branchStart := stop / params.branchingFactor * params.branchingFactor
    if stop ≤ branchEnd ∨ branchStart = branchEnd then
      some (sum + sumEntries sizes index level start stop)
    else
      match level with
      | 0 => none
      | upper + 1 => do
        let sum ← sumIndex sizes index upper (branchEnd / params.branchingFactor)
          (branchStart / params.branchingFactor)
          (sum + sumEntries sizes index level start branchEnd)
        some (sum + sumEntries sizes index level branchStart stop)

namespace Tree

variable (tree : Tree α blocks) (block : Fin blocks)

def sumFromTo (start stop : ℕ) : Option α :=
  let values := (tree.columns block).values
  let sizes := levelSizes params tree.maxSize
  let windowEnd := (start / params.valuesPerBranch + 1) * params.valuesPerBranch
  let windowStart := stop / params.valuesPerBranch * params.valuesPerBranch
  if stop ≤ windowEnd ∨ windowStart ≤ windowEnd + params.valuesPerBranch ∨ sizes.length = 0 then
    some (rangeSum values start stop)
  else do
    let sum ← sumIndex params sizes (tree.columns block).index (sizes.length - 1)
      (windowEnd / params.valuesPerBranch) (windowStart / params.valuesPerBranch)
      (rangeSum values start windowEnd)
    some (sum + rangeSum values windowStart stop)

def sumTo (stop : ℕ) : Option α := tree.sumFromTo params block 0 stop

def sum : Option α :=
  if (tree.columns block).index.length = 0 then tree.sumFromTo params block 0 tree.size
  else (tree.columns block).index[0]?

end Tree

end Sums

def scanFw [AddCommMonoid α] (hits : α → Bool) (values : List α) (start : ℕ) : Found α :=
  let found := sumScan hits 0 (values.drop start)
  ⟨(start + found.1 : ℕ), found.2⟩

def scanBw [AddCommMonoid α] (hits : α → Bool) (values : List α) (start : ℤ) : Found α :=
  let found := sumScan hits 0 (values.take (start + 1).toNat).reverse
  ⟨start - found.1, found.2⟩

namespace Tree

structure Searchable [AddCommMonoid α] (params : Params α) (tree : Tree α blocks)
    (rows : List (Row α blocks)) : Prop where
  carries : tree.Carries params rows
  indexed : tree.Indexed params rows
  segment : ∀ block, (tree.columns block).index.length = 0 ↔ tree.indexSize = 0

def column (rows : List (Row α blocks)) (block : Fin blocks) : List α :=
  rows.map fun row => row block

end Tree

end Memoria.FseTree

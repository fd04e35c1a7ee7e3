import Memoria.Lib.RankSelect

namespace Memoria

open Lib

/-! Packed sequences of symbols of a fixed width. -/

/-- `PkdFSSeq`. The index, if there is one, holds the number of occurrences of each symbol in each
block; sums and searches in the index tree are those of the list of its entries. -/
structure FSSeq (Symbol : Type) where
  symbols : List Symbol
  index : Option (List (Symbol → Nat))

namespace FSSeq

variable {Symbol : Type} [DecidableEq Symbol]

def valuesPerBranch : Nat := 1024

def empty : FSSeq Symbol := ⟨[], none⟩

def size (seq : FSSeq Symbol) : Nat := seq.symbols.length

def reindex (seq : FSSeq Symbol) : FSSeq Symbol :=
  if valuesPerBranch < seq.size then
    { seq with
      index := some <|
        (List.range ((seq.size + valuesPerBranch - 1) / valuesPerBranch)).map fun b symbol =>
          ((seq.symbols.drop (b * valuesPerBranch)).take valuesPerBranch).count symbol }
  else { seq with index := none }

def get (seq : FSSeq Symbol) (idx : Nat) : Option Symbol := seq.symbols[idx]?

def set (seq : FSSeq Symbol) (idx : Nat) (symbol : Symbol) : Option (FSSeq Symbol) :=
  if idx < seq.size then some { seq with symbols := seq.symbols.set idx symbol } else none

def insertData (seq : FSSeq Symbol) (pos : Nat) (data : List Symbol) : Option (FSSeq Symbol) :=
  if pos ≤ seq.size then
    some { seq with symbols := seq.symbols.take pos ++ data ++ seq.symbols.drop pos }
  else none

def insertEntries (seq : FSSeq Symbol) (rowAt size : Nat) (elements : Nat → Symbol) :
    Option (FSSeq Symbol) :=
  seq.insertData rowAt ((List.range size).map elements)

/-- A position behind the end is not checked by the source, and not defined here. -/
def insert (seq : FSSeq Symbol) (pos : Nat) (symbol : Symbol) : Option (FSSeq Symbol) := do
  let seq ← seq.insertData pos [symbol]
  return seq.reindex

def remove (seq : FSSeq Symbol) (start stop : Nat) : Option (FSSeq Symbol) :=
  if start ≤ stop ∧ stop ≤ seq.size then
    some { seq with symbols := seq.symbols.take start ++ seq.symbols.drop stop }.reindex
  else none

def splitTo (seq other : FSSeq Symbol) (idx : Nat) : Option (FSSeq Symbol × FSSeq Symbol) := do
  let other := { other with symbols := seq.symbols.drop idx ++ other.symbols }.reindex
  let seq ← seq.remove idx seq.size
  return (seq, other)

def mergeWith (seq other : FSSeq Symbol) : FSSeq Symbol :=
  { other with symbols := other.symbols ++ seq.symbols }.reindex

/-- Occurrences before `stop`: the sum of the index over whole blocks and a count in the last. -/
def rank (seq : FSSeq Symbol) (stop : Nat) (symbol : Symbol) : Option Nat :=
  if stop ≤ seq.size then
    match seq.index with
    | some index =>
      let valuesBlock := stop / valuesPerBranch
      let start := valuesBlock * valuesPerBranch
      some (((index.take valuesBlock).map (· symbol)).sum
        + ((seq.symbols.drop start).take (stop - start)).count symbol)
    | none => some ((seq.symbols.take stop).count symbol)
  else none

/-- Occurrences from `start` on; a negative number is not defined here. -/
def rankRange (seq : FSSeq Symbol) (start stop : Nat) (symbol : Symbol) : Option Nat := do
  let rankStart ← seq.rank start symbol
  let rankStop ← seq.rank stop symbol
  if rankStart ≤ rankStop then some (rankStop - rankStart) else none

def selectFw (seq : FSSeq Symbol) (symbol : Symbol) (rank : Nat) : Option Nat :=
  match seq.index with
  | some index =>
    let result := findGE (index.map (· symbol)) rank
    if result.1 < index.length then
      (select symbol (seq.symbols.drop (result.1 * valuesPerBranch)) (rank - result.2 - 1)).map
        (· + result.1 * valuesPerBranch)
    else none
  | none => select symbol seq.symbols (rank - 1)

end FSSeq

end Memoria

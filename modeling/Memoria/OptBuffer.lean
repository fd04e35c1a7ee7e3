import Memoria.FSSeq
import Memoria.Lib.Run

namespace Memoria

open Lib

/-! Buffers of optional values: a bitmap of the rows with a value and the array of the values. -/

abbrev ValueArray (V : Type) := List V

namespace ValueArray

variable {V : Type}

def insertEntries (array : ValueArray V) (rowAt : Nat) (values : List V) :
    Option (ValueArray V) :=
  if rowAt ≤ array.length then some (array.take rowAt ++ values ++ array.drop rowAt) else none

def removeSpace (array : ValueArray V) (start stop : Nat) : Option (ValueArray V) :=
  if start ≤ stop ∧ stop ≤ array.length then some (array.take start ++ array.drop stop) else none

def setValues (array : ValueArray V) (pos : Nat) (value : V) : Option (ValueArray V) := do
  let array ← array.removeSpace pos (pos + 1)
  array.insertEntries pos [value]

def splitTo (array other : ValueArray V) (idx : Nat) :
    Option (ValueArray V × ValueArray V) :=
  if other.length = 0 ∧ idx ≤ array.length then some (array.take idx, array.drop idx) else none

def mergeWith (array other : ValueArray V) : ValueArray V := other ++ array

/-- The loop of `std::lower_bound` and `std::upper_bound`: `before` holds of the values in front of
the bound. -/
def partitionPoint (array : ValueArray V) (before : V → Bool) : Nat → Nat → Nat → Nat
  | 0, first, _ => first
  | fuel + 1, first, length =>
    if length = 0 then first
    else
      let half := length / 2
      match array[first + half]? with
      | some value =>
        if before value then
          partitionPoint array before fuel (first + half + 1) (length - half - 1)
        else partitionPoint array before fuel first half
      | none => first

variable [LinearOrder V]

def findGEForward (array : ValueArray V) (key : V) : Nat :=
  partitionPoint array (fun value => value < key) array.length 0 array.length

def findGTForward (array : ValueArray V) (key : V) : Nat :=
  partitionPoint array (fun value => !(key < value)) array.length 0 array.length

end ValueArray

structure OptBuffer (V : Type) where
  bitmap : FSSeq Bool
  array : ValueArray V

namespace OptBuffer

variable {V : Type}

def empty : OptBuffer V := ⟨.empty, []⟩

def size (buffer : OptBuffer V) : Nat := buffer.bitmap.size

def arrayIdx (bitmap : FSSeq Bool) (globalIdx : Nat) : Option Nat := bitmap.rank globalIdx true

def bitmapIdx (bitmap : FSSeq Bool) (arrayIdx : Nat) : Nat :=
  (bitmap.selectFw true (arrayIdx + 1)).getD bitmap.size

/-- `none` is a failed assertion or a value outside the array, `some none` an absent row. -/
def access (buffer : OptBuffer V) (row : Nat) : Option (Option V) := do
  if ← buffer.bitmap.get row then do
    let arrayIdx ← arrayIdx buffer.bitmap row
    let value ← buffer.array[arrayIdx]?
    return some value
  else return none

def splitTo (buffer other : OptBuffer V) (idx : Nat) : Option (OptBuffer V × OptBuffer V) := do
  let arrayIdx ← arrayIdx buffer.bitmap idx
  let (bitmap, otherBitmap) ← buffer.bitmap.splitTo other.bitmap idx
  let (array, otherArray) ← buffer.array.splitTo other.array arrayIdx
  return (⟨bitmap.reindex, array⟩, ⟨otherBitmap, otherArray⟩)

def mergeWith (buffer other : OptBuffer V) : OptBuffer V :=
  ⟨buffer.bitmap.mergeWith other.bitmap, buffer.array.mergeWith other.array⟩

def removeSpace (buffer : OptBuffer V) (start stop : Nat) : Option (OptBuffer V) := do
  let arrayStart ← arrayIdx buffer.bitmap start
  let arrayStop ← arrayIdx buffer.bitmap stop
  let bitmap ← buffer.bitmap.remove start stop
  let array ← buffer.array.removeSpace arrayStart arrayStop
  return ⟨bitmap, array⟩

/-- The accessor answers every position. The value for `arrIdx` is read at the row that holds value
`rowAt + arrIdx` of the bitmap; a row before `rowAt` or an empty answer is not defined. -/
def entryAt (bitmap : FSSeq Bool) (rowAt : Nat) (elements : Nat → Option V) (arrIdx : Nat) :
    Option V :=
  let bmIdx := bitmapIdx bitmap (rowAt + arrIdx)
  if rowAt ≤ bmIdx then elements (bmIdx - rowAt) else none

def insertEntries (buffer : OptBuffer V) (rowAt size : Nat) (elements : Nat → Option V) :
    Option (OptBuffer V) := do
  let bitmap ← buffer.bitmap.insertEntries rowAt size fun pos => (elements pos).isSome
  let setElementsNum ← bitmap.rankRange rowAt (rowAt + size) true
  let arrayRowAt ← arrayIdx bitmap rowAt
  let values ← (List.range setElementsNum).mapM (entryAt bitmap rowAt elements)
  let array ← buffer.array.insertEntries arrayRowAt values
  return ⟨bitmap, array⟩

def removeEntries (buffer : OptBuffer V) (rowAt size : Nat) : Option (OptBuffer V) :=
  buffer.removeSpace rowAt (rowAt + size)

def updateEntries (buffer : OptBuffer V) (rowAt size : Nat) (elements : Nat → Option V) :
    Option (OptBuffer V) := do
  let buffer ← buffer.removeEntries rowAt size
  buffer.insertEntries rowAt size elements

def setValues (buffer : OptBuffer V) (idx : Nat) (value : Option V) : Option (OptBuffer V) := do
  let arrayIdx ← arrayIdx buffer.bitmap idx
  let present ← buffer.bitmap.get idx
  match value, present with
  | some value, true =>
    let array ← buffer.array.setValues arrayIdx value
    return { buffer with array := array }
  | some value, false =>
    let array ← buffer.array.insertEntries arrayIdx [value]
    let bitmap ← buffer.bitmap.set idx true
    return ⟨bitmap.reindex, array⟩
  | none, true =>
    let array ← buffer.array.removeSpace arrayIdx (arrayIdx + 1)
    let bitmap ← buffer.bitmap.set idx false
    return ⟨bitmap.reindex, array⟩
  | none, false => return buffer

def insert (buffer : OptBuffer V) (idx : Nat) (value : Option V) : Option (OptBuffer V) := do
  match value with
  | some value =>
    let bitmap ← buffer.bitmap.insert idx true
    let arrayIdx ← arrayIdx bitmap idx
    let array ← buffer.array.insertEntries arrayIdx [value]
    return ⟨bitmap, array⟩
  | none =>
    let bitmap ← buffer.bitmap.insert idx false
    return { buffer with bitmap := bitmap }

section Find

variable [LinearOrder V]

def findGEForward (buffer : OptBuffer V) (key : V) : Nat :=
  bitmapIdx buffer.bitmap (buffer.array.findGEForward key)

def findGTForward (buffer : OptBuffer V) (key : V) : Nat :=
  bitmapIdx buffer.bitmap (buffer.array.findGTForward key)

end Find

inductive Op (ι V : Type) where
  | insert (buffer : ι) (idx : Nat) (value : Option V)
  | insertEntries (buffer : ι) (rowAt size : Nat) (elements : Nat → Option V)
  | setValues (buffer : ι) (idx : Nat) (value : Option V)
  | updateEntries (buffer : ι) (rowAt size : Nat) (elements : Nat → Option V)
  | removeSpace (buffer : ι) (start stop : Nat)
  | splitTo (buffer other : ι) (idx : Nat)
  | mergeWith (buffer other : ι)

variable {ι : Type} [DecidableEq ι]

def step (buffers : ι → OptBuffer V) : Op ι V → Option (ι → OptBuffer V)
  | .insert b idx value => do
    return Function.update buffers b (← (buffers b).insert idx value)
  | .insertEntries b rowAt size elements => do
    return Function.update buffers b (← (buffers b).insertEntries rowAt size elements)
  | .setValues b idx value => do
    return Function.update buffers b (← (buffers b).setValues idx value)
  | .updateEntries b rowAt size elements => do
    return Function.update buffers b (← (buffers b).updateEntries rowAt size elements)
  | .removeSpace b start stop => do
    return Function.update buffers b (← (buffers b).removeSpace start stop)
  | .splitTo b other idx =>
    if b = other then none
    else do
      let (buffer, moved) ← (buffers b).splitTo (buffers other) idx
      return Function.update (Function.update buffers b buffer) other moved
  | .mergeWith b other =>
    if b = other then none
    else some (Function.update buffers other ((buffers b).mergeWith (buffers other)))

end OptBuffer

end Memoria

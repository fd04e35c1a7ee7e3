import Mathlib.Algebra.BigOperators.Group.List.Basic
import Mathlib.Algebra.Order.Ring.Int
import Mathlib.Data.List.Basic

/-!
# Packed allocators

A packed allocator keeps elements side by side in one memory block, and an element may itself be an
allocator. The sizes are modelled, the bytes are not. An allocator is given with the allocators
around it, from the nearest to the outermost one, each with the number of the element that the
operation comes from. `none` stands for an out of memory error.
-/

namespace Memoria

def alignmentBlock : Int := 8

def roundUpBytesToAlignmentBlocks (value : Int) : Int :=
  (value.tdiv alignmentBlock + if value.tmod alignmentBlock = 0 then 0 else 1) * alignmentBlock

def roundDownBytesToAlignmentBlocks (value : Int) : Int :=
  value.tdiv alignmentBlock * alignmentBlock

def roundUpBitsToAlignmentBlocks (bits : Int) : Int :=
  roundUpBytesToAlignmentBlocks (bits.tdiv 8 + if bits.tmod 8 = 0 then 0 else 1)

structure PackedAllocator where
  blockSize : Int
  bitmapSize : Int
  /-- The offsets of the elements and, last, the end of the elements. -/
  layout : List Int
deriving DecidableEq, Repr

namespace PackedAllocator

def mySize : Int := 24

def layoutSize (a : PackedAllocator) : Int := 4 * a.layout.length

def elements (a : PackedAllocator) : Nat := a.layout.length - 1

def elementOffset (a : PackedAllocator) (idx : Nat) : Int := a.layout.getD idx 0

def elementSize (a : PackedAllocator) (idx : Nat) : Int :=
  a.elementOffset (idx + 1) - a.elementOffset idx

def allocated (a : PackedAllocator) : Int := a.elementOffset a.elements

def clientArea (a : PackedAllocator) : Int := a.blockSize - mySize - a.layoutSize - a.bitmapSize

def freeSpace (a : PackedAllocator) : Int := a.clientArea - a.allocated

def init (blockSize : Int) (blocks : Nat) : PackedAllocator :=
  let layoutBlocks := blocks + if blocks % 2 = 1 then 1 else 2
  { blockSize := roundDownBytesToAlignmentBlocks blockSize
    bitmapSize := roundUpBitsToAlignmentBlocks layoutBlocks
    layout := List.replicate layoutBlocks 0 }

def blockSizeFor (clientArea : Int) (blocks : Nat) : Int :=
  roundUpBytesToAlignmentBlocks
    (mySize + (blocks + if blocks % 2 = 1 then 1 else 2) * 4 + roundUpBitsToAlignmentBlocks blocks
      + roundUpBytesToAlignmentBlocks clientArea)

def clientAreaFor (blockSize : Int) (blocks : Nat) : Int :=
  roundDownBytesToAlignmentBlocks
    (blockSize
      - (mySize + (blocks + if blocks % 2 = 1 then 1 else 2) * 4 + roundUpBitsToAlignmentBlocks blocks))

def bufferOffset : Int := 16

def base (a : PackedAllocator) : Int := bufferOffset + a.layoutSize + a.bitmapSize

def moveElements (a : PackedAllocator) (startIdx : Nat) (delta : Int) : PackedAllocator :=
  { a with layout := a.layout.mapIdx fun i offset => if startIdx ≤ i then offset + delta else offset }

abbrev Outer : Type := List (Nat × PackedAllocator)

def resizeBlockWith (resize : PackedAllocator → Int → Option (PackedAllocator × Outer))
    (outer : Outer) (a : PackedAllocator) (idx : Nat) (newSize : Int) :
    Option (PackedAllocator × Outer × Int) :=
  if newSize < 0 then none
  else
    let allocationSize := roundUpBytesToAlignmentBlocks newSize
    let delta := allocationSize - a.elementSize idx
    if 0 < delta then
      if a.freeSpace < delta then do
        -- `enlarge(delta)`, whatever space is left
        let (a, outer) ← resize a (roundUpBytesToAlignmentBlocks (a.blockSize + delta))
        some (a.moveElements (idx + 1) delta, outer, allocationSize)
      else
        some (a.moveElements (idx + 1) delta, outer, allocationSize)
    else if delta < 0 then
      let a := a.moveElements (idx + 1) delta
      if outer.isEmpty then
        some (a, outer, allocationSize)
      else do
        -- `pack()`
        let (a, outer) ← resize a (a.blockSize - a.freeSpace)
        some (a, outer, allocationSize)
    else
      some (a, outer, allocationSize)

def resize : Outer → PackedAllocator → Int → Option (PackedAllocator × Outer)
  | [], a, newSize =>
      if newSize ≤ a.blockSize then
        if a.allocated + mySize + a.layoutSize + a.bitmapSize ≤ newSize then
          some ({ a with blockSize := newSize }, [])
        else
          none
      else
        none
  | (idx, parent) :: rest, a, newSize => do
      let (parent, rest, blockSize) ← resizeBlockWith (resize rest) rest parent idx newSize
      some ({ a with blockSize := blockSize }, (idx, parent) :: rest)

def resizeBlock (outer : Outer) (a : PackedAllocator) (idx : Nat) (newSize : Int) :
    Option (PackedAllocator × Outer × Int) :=
  resizeBlockWith (resize outer) outer a idx newSize

def enlarge (outer : Outer) (a : PackedAllocator) (delta : Int) :
    Option (PackedAllocator × Outer) :=
  resize outer a (roundUpBytesToAlignmentBlocks (a.blockSize + delta))

def allocate (outer : Outer) (a : PackedAllocator) (idx : Nat) (size : Int) :
    Option (PackedAllocator × Outer × Int) :=
  let allocationSize := roundUpBytesToAlignmentBlocks size
  if a.freeSpace < allocationSize then do
    let (a, outer) ← enlarge outer a (allocationSize - a.freeSpace)
    some (a.moveElements (idx + 1) allocationSize, outer, allocationSize)
  else
    some (a.moveElements (idx + 1) allocationSize, outer, allocationSize)

def computeFreeSpaceUp (outer : Outer) (a : PackedAllocator) : Int :=
  a.freeSpace + (outer.map fun frame => frame.2.freeSpace).sum

structure Ordered (a : PackedAllocator) : Prop where
  even : a.layout.length % 2 = 0
  nonempty : a.layout ≠ []
  aligned : ∀ offset ∈ a.layout, alignmentBlock ∣ offset
  nonneg : ∀ offset ∈ a.layout, 0 ≤ offset
  sorted : a.layout.Pairwise (· ≤ ·)
  blockSize_aligned : alignmentBlock ∣ a.blockSize
  bitmapSize_aligned : alignmentBlock ∣ a.bitmapSize
  bitmapSize_nonneg : 0 ≤ a.bitmapSize
  fits : 0 ≤ a.freeSpace

/-- The header, the layout and the bitmap lie one behind the other before a client area that has its
bytes within the block. -/
def RegionsApart (a : PackedAllocator) : Prop :=
  bufferOffset ≤ bufferOffset + a.layoutSize ∧ bufferOffset + a.layoutSize ≤ a.base ∧
    0 ≤ a.clientArea ∧ a.base + a.clientArea ≤ a.blockSize

def Adequate (clientArea : Int) (blocks : Nat) : Prop :=
  let a := init (blockSizeFor clientArea blocks) blocks
  clientArea ≤ a.clientArea ∧ a.RegionsApart ∧
    clientAreaFor (blockSizeFor clientArea blocks) blocks = a.clientArea

def Sound : Outer → PackedAllocator → Prop
  | [], a => a.Ordered
  | (idx, parent) :: rest, a =>
      a.Ordered ∧ idx < parent.elements ∧ parent.elementSize idx = a.blockSize ∧ Sound rest parent

def GrowsWithin (bound : Int) (outer : Outer) (a : PackedAllocator) (outer' : Outer)
    (a' : PackedAllocator) : Prop :=
  a'.blockSize - a.blockSize ≤ bound
    ∧ List.Forall₂ (fun frame frame' => frame'.2.blockSize - frame.2.blockSize ≤ bound) outer outer'

/-- An element grows by `growth` just where the free space all the way up covers it, and takes from
outside no more than the space in its own allocator leaves uncovered. -/
def Accounted (outer : Outer) (a : PackedAllocator) (growth : Int)
    (result : Option (PackedAllocator × Outer × Int)) : Prop :=
  (result.isSome = true ↔ growth ≤ computeFreeSpaceUp outer a)
    ∧ ∀ a' outer' size, result = some (a', outer', size) →
      GrowsWithin (max 0 (growth - a.freeSpace)) outer a outer' a'

/-- The space for an element that grows by `growth` is all in its allocator, or this one has none
and another one has all of it, or there is not enough. -/
def ResizeOk (outer : Outer) (a : PackedAllocator) (growth : Int) : Prop :=
  growth ≤ a.freeSpace
    ∨ (a.freeSpace = 0 ∧ ∃ frame ∈ outer, growth ≤ frame.2.freeSpace)
    ∨ computeFreeSpaceUp outer a < growth

/-- The space for a new element is all in its allocator, or one of the others has the rest, or there
is not enough. -/
def AllocateOk (outer : Outer) (a : PackedAllocator) (size : Int) : Prop :=
  size ≤ a.freeSpace
    ∨ (∃ frame ∈ outer, size - a.freeSpace ≤ frame.2.freeSpace)
    ∨ computeFreeSpaceUp outer a < size

end PackedAllocator

end Memoria

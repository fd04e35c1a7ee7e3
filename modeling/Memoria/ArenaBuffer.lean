import Memoria.Lib.Objects

/-!
# Arena buffers

An `ArenaBuffer` has a block of memory, which it takes to be of `capacity` elements, and `size` of
them are its content. A `VLEArenaBuffer` keeps rows of different lengths in two such buffers. `none`
is a read or a write outside a block, or a `memcpy` of ranges that overlap. Sizes are numbers: twice
the capacity and the size with what is added are taken to fit into the `size_t` of the source.
-/

namespace Memoria

open Lib

variable {T : Type}

structure ArenaBuffer (T : Type) where
  block : List T
  capacity : Nat
  size : Nat

def allocateBuffer (memory : Nat → T) (size : Nat) : List T := (List.range size).map memory

def loadBuffer (block : List T) (idx size : Nat) : Option (List T) :=
  if idx + size ≤ block.length then some ((block.drop idx).take size) else none

def storeBuffer (block : List T) (idx : Nat) (values : List T) : Option (List T) :=
  if idx + values.length ≤ block.length then
    some (block.take idx ++ (values ++ block.drop (idx + values.length)))
  else none

def memCpyBuffer (block : List T) (src dst size : Nat) : Option (List T) :=
  if size = 0 ∨ src + size ≤ dst ∨ dst + size ≤ src then do
    let values ← loadBuffer block src size
    storeBuffer block dst values
  else none

namespace ArenaBuffer

section Operations

variable (memory : Nat → T)

def growCapacity (needed capacity : Nat) : Nat :=
  if _ : 0 < capacity ∧ needed > capacity then growCapacity needed (capacity * 2) else capacity
termination_by needed - capacity

def enlarge (requested : Nat) (buffer : ArenaBuffer T) : Option (ArenaBuffer T) := do
  let doubled := if buffer.capacity * 2 = 0 then 1 else buffer.capacity * 2
  let nextCapacity := growCapacity (buffer.capacity + requested) doubled
  let values ← loadBuffer buffer.block 0 buffer.size
  let block ← storeBuffer (allocateBuffer memory nextCapacity) 0 values
  some { buffer with block := block, capacity := nextCapacity }

def ensure (size : Nat) (buffer : ArenaBuffer T) : Option (ArenaBuffer T) :=
  if buffer.size + size > buffer.capacity then
    enlarge memory (buffer.size + size - buffer.capacity) buffer
  else some buffer

def appendValues (values : List T) (buffer : ArenaBuffer T) : Option (ArenaBuffer T) := do
  let buffer ← ensure memory values.length buffer
  let block ← storeBuffer buffer.block buffer.size values
  some { buffer with block := block, size := buffer.size + values.length }

def appendValue (value : T) (buffer : ArenaBuffer T) : Option (ArenaBuffer T) :=
  appendValues memory [value] buffer

def clear (buffer : ArenaBuffer T) : ArenaBuffer T := { buffer with size := 0 }

def reset (_ : ArenaBuffer T) : ArenaBuffer T := ⟨allocateBuffer memory 64, 64, 0⟩

def remove (start stop : Nat) (buffer : ArenaBuffer T) : Option (ArenaBuffer T) := do
  let block ← memCpyBuffer buffer.block stop start (buffer.size - stop)
  some { buffer with block := block, size := buffer.size - (stop - start) }

def addSize (size : Nat) (buffer : ArenaBuffer T) : ArenaBuffer T :=
  { buffer with size := buffer.size + size }

/-- The copy constructors: a block for the elements there are, with the capacity of the other
buffer. -/
def copyOf (other : ArenaBuffer T) : Option (ArenaBuffer T) := do
  let block ← loadBuffer other.block 0 other.size
  some { other with block := block }

end Operations

inductive Ctor (T : Type) where
  | ofCapacity (capacity : Nat)
  | ofBlock (block : List T)

inductive Edit (T : Type) where
  | appendValue (value : T)
  | appendValues (values : List T)
  | ensure (size : Nat)
  | remove (start stop : Nat)
  | clear
  | reset
  | addSize (size : Nat)

/-- Copy construction, `operator=(const ArenaBuffer&&)`, which copies, and the three ways to move:
the target has the block of the other buffer, and its own one is freed. -/
inductive Way where
  | copyConstruct
  | assignConst
  | moveConstruct
  | moveAssign
  | moveDataFrom
  deriving DecidableEq

def Way.copies : Way → Bool
  | .copyConstruct => true
  | .assignConst => true
  | _ => false

def Edit.promised (buffer : ArenaBuffer T) : Edit T → Bool
  | .remove start stop => decide (start ≤ stop ∧ stop ≤ buffer.size)
  | .addSize size => decide (buffer.size + size ≤ buffer.capacity)
  | _ => true

def Edit.apply (memory : Nat → T) (buffer : ArenaBuffer T) : Edit T → Option (ArenaBuffer T)
  | .appendValue value => buffer.appendValue memory value
  | .appendValues values => buffer.appendValues memory values
  | .ensure size => buffer.ensure memory size
  | .remove start stop => buffer.remove start stop
  | .clear => some buffer.clear
  | .reset => some (buffer.reset memory)
  | .addSize size => some (buffer.addSize size)

def Edit.list (buffer : ArenaBuffer T) (content : List T) : Edit T → List T
  | .appendValue value => content ++ [value]
  | .appendValues values => content ++ values
  | .ensure _ => content
  | .remove start stop => content.take start ++ content.drop stop
  | .clear => []
  | .reset => []
  | .addSize size => content ++ (buffer.block.drop buffer.size).take size

def cls (memory : Nat → T) : ObjectClass (ArenaBuffer T) (List T) (Ctor T) (Edit T) Way where
  make
    | .ofCapacity capacity => ⟨allocateBuffer memory capacity, capacity, 0⟩
    | .ofBlock block => ⟨block, block.length, 0⟩
  made _ := []
  promised edit buffer := edit.promised buffer
  change edit buffer := edit.apply memory buffer
  changed edit buffer content := edit.list buffer content
  transfer way other := if way.copies then other.copyOf else some other
  moves way := !way.copies

structure Honest (buffer : ArenaBuffer T) (content : List T) : Prop where
  take_eq : buffer.block.take buffer.size = content
  size_eq : buffer.size = content.length
  size_le : buffer.size ≤ buffer.capacity
  capacity_le : buffer.capacity ≤ buffer.block.length

def Edit.Apart : Edit T → ArenaBuffer T → Prop
  | .remove start stop, buffer => buffer.size - stop ≤ stop - start
  | _, _ => True

def Way.OfFull (way : Way) (buffer : ArenaBuffer T) : Prop :=
  way.copies = true → buffer.size = buffer.capacity

end ArenaBuffer

structure VLEArenaBuffer (T : Type) where
  offsets : ArenaBuffer Nat
  data : ArenaBuffer T

namespace VLEArenaBuffer

section Operations

variable (offsetMemory : Nat → Nat) (memory : Nat → T)

def startOffsets (offsets : ArenaBuffer Nat) : Option (ArenaBuffer Nat) :=
  if offsets.size = 0 then offsets.appendValue offsetMemory 0 else some offsets

def appendOffset (offset : Nat) (offsets : ArenaBuffer Nat) : Option (ArenaBuffer Nat) := do
  let offsets ← startOffsets offsetMemory offsets
  offsets.appendValue offsetMemory offset

def append (values : List T) (buffer : VLEArenaBuffer T) : Option (VLEArenaBuffer T) := do
  let offsets ← appendOffset offsetMemory (buffer.data.size + values.length) buffer.offsets
  let data ← buffer.data.appendValues memory values
  some ⟨offsets, data⟩

def appendSize (size : Nat) (buffer : VLEArenaBuffer T) : Option (VLEArenaBuffer T) := do
  let offsets ← appendOffset offsetMemory (buffer.data.size + size) buffer.offsets
  some ⟨offsets, buffer.data.addSize size⟩

def ensure (size : Nat) (buffer : VLEArenaBuffer T) : Option (VLEArenaBuffer T) := do
  let data ← buffer.data.ensure memory size
  some { buffer with data := data }

def reset (buffer : VLEArenaBuffer T) : VLEArenaBuffer T :=
  ⟨buffer.offsets.reset offsetMemory, buffer.data.reset memory⟩

end Operations

def clear (buffer : VLEArenaBuffer T) : VLEArenaBuffer T :=
  ⟨buffer.offsets.clear, buffer.data.clear⟩

def copyOf (other : VLEArenaBuffer T) : Option (VLEArenaBuffer T) := do
  let offsets ← other.offsets.copyOf
  let data ← other.data.copyOf
  some ⟨offsets, data⟩

inductive Edit (T : Type) where
  | append (values : List T)
  | appendSize (size : Nat)
  | ensure (size : Nat)
  | clear
  | reset

inductive Way where
  | copyConstruct
  | moveConstruct
  | moveAssign
  deriving DecidableEq

def Edit.promised (buffer : VLEArenaBuffer T) : Edit T → Bool
  | .appendSize size => decide (buffer.data.size + size ≤ buffer.data.capacity)
  | _ => true

def Edit.apply (offsetMemory : Nat → Nat) (memory : Nat → T) (buffer : VLEArenaBuffer T) :
    Edit T → Option (VLEArenaBuffer T)
  | .append values => buffer.append offsetMemory memory values
  | .appendSize size => buffer.appendSize offsetMemory size
  | .ensure size => buffer.ensure memory size
  | .clear => some buffer.clear
  | .reset => some (buffer.reset offsetMemory memory)

def Edit.rows (buffer : VLEArenaBuffer T) (rows : List (List T)) : Edit T → List (List T)
  | .append values => rows ++ [values]
  | .appendSize size => rows ++ [(buffer.data.block.drop buffer.data.size).take size]
  | .ensure _ => rows
  | .clear => []
  | .reset => []

def cls (offsetMemory : Nat → Nat) (memory : Nat → T) :
    ObjectClass (VLEArenaBuffer T) (List (List T)) Unit (Edit T) Way where
  make _ := ⟨⟨[], 0, 0⟩, ⟨[], 0, 0⟩⟩
  made _ := []
  promised edit buffer := edit.promised buffer
  change edit buffer := edit.apply offsetMemory memory buffer
  changed edit buffer rows := edit.rows buffer rows
  transfer way other := if way = .copyConstruct then other.copyOf else some other
  moves way := decide (way ≠ .copyConstruct)

def offsetsOf (rows : List (List T)) : List Nat :=
  if rows = [] then []
  else (List.range (rows.length + 1)).map fun i => (rows.take i).flatten.length

structure Honest (buffer : VLEArenaBuffer T) (rows : List (List T)) : Prop where
  offsets : buffer.offsets.Honest (offsetsOf rows)
  data : buffer.data.Honest rows.flatten

def Way.OfFull (way : Way) (buffer : VLEArenaBuffer T) : Prop :=
  way = .copyConstruct →
    buffer.offsets.size = buffer.offsets.capacity ∧ buffer.data.size = buffer.data.capacity

end VLEArenaBuffer

end Memoria

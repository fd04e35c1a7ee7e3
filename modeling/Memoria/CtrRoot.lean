import Memoria.Lib.Heap
import Memoria.Lib.Run
import Memoria.Lib.SortedList

namespace Memoria.CtrRoot

open Lib

/-! The root block of a container, with its properties and references, in a store of snapshots. -/

abbrev PackedMap (K V : Type) := List (K × V)

namespace PackedMap

variable {K V : Type} [LinearOrder K]

/-- The entries before the first key that is not less than `key`, which `findGEForward` finds. -/
def before (map : PackedMap K V) (key : K) : PackedMap K V := map.takeWhile fun e => e.1 < key

def fromGE (map : PackedMap K V) (key : K) : PackedMap K V := map.dropWhile fun e => e.1 < key

def find (map : PackedMap K V) (key : K) : Option V :=
  match map.fromGE key with
  | (key₀, value) :: _ => if key₀ = key then some value else none
  | [] => none

def set (map : PackedMap K V) (key : K) (value : V) : PackedMap K V :=
  match map.fromGE key with
  | (key₀, value₀) :: rest =>
    if key₀ = key then map.before key ++ (key, value) :: rest
    else map.before key ++ (key, value) :: (key₀, value₀) :: rest
  | [] => map ++ [(key, value)]

def remove (map : PackedMap K V) (key : K) : PackedMap K V :=
  match map.fromGE key with
  | (key₀, _) :: rest => if key₀ = key then map.before key ++ rest else map
  | [] => map

def setAll (map : PackedMap K V) (entries : List (K × V)) : PackedMap K V :=
  entries.foldl (fun map e => map.set e.1 e.2) map

end PackedMap

structure Header where
  snapshotId : Nat
  memoryBlockSize : Nat

inductive Node (E : Type) where
  | leaf (header : Header) (entries : List E)
  | branch (header : Header) (children : List (Node E))

inductive Tree (E : Type) where
  | leaf (entries : List E)
  | branch (children : List (Tree E))

namespace Node

variable {E : Type}

def header : Node E → Header
  | .leaf header _ => header
  | .branch header _ => header

def withHeader (header : Header) : Node E → Node E
  | .leaf _ entries => .leaf header entries
  | .branch _ children => .branch header children

def isLeaf : Node E → Bool
  | .leaf _ _ => true
  | .branch _ _ => false

def tree : Node E → Tree E
  | .leaf _ entries => .leaf entries
  | .branch _ children => .branch (children.map tree)

end Node

structure Metadata (K V R : Type) where
  memoryBlockSize : Nat
  properties : PackedMap K V
  references : PackedMap K R

structure Block (K V R E : Type) where
  node : Node E
  level : Nat
  metadata : Metadata K V R

structure Sizes (K V R E : Type) where
  propertyUpsize : Block K V R E → List (K × V) → Nat
  referenceUpsize : Block K V R E → List (K × R) → Nat
  propertiesFreeSpaceUp : Block K V R E → Nat
  referencesFreeSpaceUp : Block K V R E → Nat
  freeSpace : Block K V R E → Nat
  fits : Block K V R E → Bool
  freeSpace_le_properties : ∀ b, freeSpace b ≤ propertiesFreeSpaceUp b
  freeSpace_le_references : ∀ b, freeSpace b ≤ referencesFreeSpaceUp b

inductive Profile where
  | cow
  | noCow
deriving DecidableEq

structure Store (K V R E : Type) where
  blocks : Heap (Block K V R E)
  roots : Nat → Option Nat
  active : Nat → Bool

namespace Store

variable {K V R E : Type} [LinearOrder K]

def rootBlock (store : Store K V R E) (s : Nat) : Option (Block K V R E) :=
  (store.roots s).bind store.blocks.read

def create (block : Block K V R E) : Store K V R E where
  blocks :=
    Heap.empty.alloc
      { block with node := block.node.withHeader { block.node.header with snapshotId := 0 } }
  roots := Function.update (fun _ => none) 0 (some 0)
  active := Function.update (fun _ => false) 0 true

def newRoot (store : Store K V R E) (s : Nat) (block : Block K V R E) : Store K V R E :=
  { store with
    blocks := store.blocks.alloc block
    roots := Function.update store.roots s (some store.blocks.next) }

section Operations

variable (profile : Profile) (sizes : Sizes K V R E)

/-- `ctr_cow_clone_path` of the path that has the root only. -/
def cowClonePath (store : Store K V R E) (s : Nat) : Option (Store K V R E) := do
  let block ← store.rootBlock s
  match profile with
  | .noCow => return store
  | .cow =>
    if block.node.header.snapshotId = s then return store
    else
      let header := { block.node.header with snapshotId := s }
      return store.newRoot s { block with node := block.node.withHeader header }

/-- A copy of the root with another size. The copy-on-write one is made by the dispatcher of leaf
nodes, which refuses a branch, at the level of the path, which is zero. -/
def resizeBlock (store : Store K V R E) (s newSize : Nat) : Option (Store K V R E) := do
  let block ← store.rootBlock s
  let resized := { block with node := block.node.withHeader ⟨s, newSize⟩ }
  match profile with
  | .noCow => if sizes.fits resized then some (store.newRoot s resized) else none
  | .cow =>
    if block.node.isLeaf ∧ sizes.fits resized then
      some (store.newRoot s { resized with level := 0 })
    else none

/-- The loop of `ctr_upsize_node`. Each turn adds the size of the block to the free space, so
`upsize` turns are enough. -/
def doubledSize (upsize : Nat) : Nat → Nat → Nat → Nat
  | 0, size, _ => size
  | fuel + 1, size, free =>
    if free < upsize then doubledSize upsize fuel (size * 2) (free + size) else size

def upsizeNode (store : Store K V R E) (s upsize : Nat) : Option (Store K V R E) := do
  let block ← store.rootBlock s
  let free := sizes.freeSpace block
  if free < upsize then
    resizeBlock profile sizes store s
      (doubledSize upsize upsize block.node.header.memoryBlockSize free)
  else return store

def targetSize (used : Nat) : Nat → Nat → Nat
  | 0, target => target
  | fuel + 1, target => if target < used then targetSize used fuel (target * 2) else target

def downsizeNode (store : Store K V R E) (s : Nat) : Option (Store K V R E) := do
  let block ← store.rootBlock s
  let size := block.node.header.memoryBlockSize
  let used := size - sizes.freeSpace block
  if 8192 < size then resizeBlock profile sizes store s (targetSize used used 8192)
  else return store

def writeMap (store : Store K V R E) (p : Nat) (edit : Metadata K V R → Metadata K V R) :
    Option (Store K V R E) := do
  let block ← store.blocks.read p
  let block := { block with metadata := edit block.metadata }
  if sizes.fits block then some { store with blocks := store.blocks.modify p fun _ => block }
  else none

/-- The body of the four functions that set entries. The handle of the map is taken before the path
is cloned, and taken again only behind an upsize. -/
def setEntries (store : Store K V R E) (s : Nat)
    (upsize freeSpaceUp : Block K V R E → Nat) (edit : Metadata K V R → Metadata K V R) :
    Option (Store K V R E) := do
  let p ← store.roots s
  let block ← store.blocks.read p
  let store ← cowClonePath profile store s
  if freeSpaceUp block < upsize block then
    let store ← upsizeNode profile sizes store s (upsize block)
    let p ← store.roots s
    writeMap sizes store p edit
  else writeMap sizes store p edit

def removeEntry (store : Store K V R E) (s : Nat) (edit : Metadata K V R → Metadata K V R) :
    Option (Store K V R E) := do
  let p ← store.roots s
  let store ← cowClonePath profile store s
  let store ← writeMap sizes store p edit
  downsizeNode profile sizes store s

def setCtrProperties (store : Store K V R E) (s : Nat) (entries : List (K × V)) :
    Option (Store K V R E) :=
  setEntries profile sizes store s (fun block => sizes.propertyUpsize block entries)
    sizes.propertiesFreeSpaceUp
    fun metadata => { metadata with properties := metadata.properties.setAll entries }

def setCtrProperty (store : Store K V R E) (s : Nat) (key : K) (value : V) :
    Option (Store K V R E) :=
  setEntries profile sizes store s (fun block => sizes.propertyUpsize block [(key, value)])
    sizes.propertiesFreeSpaceUp
    fun metadata => { metadata with properties := metadata.properties.set key value }

def setCtrReferences (store : Store K V R E) (s : Nat) (entries : List (K × R)) :
    Option (Store K V R E) :=
  setEntries profile sizes store s (fun block => sizes.referenceUpsize block entries)
    sizes.referencesFreeSpaceUp
    fun metadata => { metadata with references := metadata.references.setAll entries }

def setCtrReference (store : Store K V R E) (s : Nat) (key : K) (value : R) :
    Option (Store K V R E) :=
  setEntries profile sizes store s (fun block => sizes.referenceUpsize block [(key, value)])
    sizes.referencesFreeSpaceUp
    fun metadata => { metadata with references := metadata.references.set key value }

def removeCtrProperty (store : Store K V R E) (s : Nat) (key : K) : Option (Store K V R E) :=
  removeEntry profile sizes store s fun metadata =>
    { metadata with properties := metadata.properties.remove key }

def removeCtrReference (store : Store K V R E) (s : Nat) (key : K) : Option (Store K V R E) :=
  removeEntry profile sizes store s fun metadata =>
    { metadata with references := metadata.references.remove key }

def setNewBlockSize (store : Store K V R E) (s blockSize : Nat) : Option (Store K V R E) := do
  let store ← cowClonePath profile store s
  let p ← store.roots s
  let block ← store.blocks.read p
  let metadata := { block.metadata with memoryBlockSize := blockSize }
  return { store with blocks := store.blocks.modify p fun _ => { block with metadata := metadata } }

/-- Growth: a branch with the old root as its only child. The old root is this snapshot's own, by
the guard in `ctr_root_to_node`, and loses its metadata. -/
def createNewRootBlock (store : Store K V R E) (s : Nat) : Option (Store K V R E) := do
  let block ← store.rootBlock s
  let size := block.node.header.memoryBlockSize
  let newRoot :=
    { block with
      node := .branch ⟨s, size⟩ [block.node.withHeader ⟨s, size⟩]
      level := block.level + 1 }
  match profile with
  | .noCow => if sizes.fits newRoot then some (store.newRoot s newRoot) else none
  -- `set_root` drops the only reference to the old root, which is removed with all that is below it
  -- before `ctr_ref_block` asks for it
  | .cow => none

/-- Collapse: the only child becomes the root and gets its metadata. The copy-on-write one checks a
handle of the child that is taken before the path is cloned, so the child has to be this snapshot's
own already. -/
def removeRedundantRoot (store : Store K V R E) (s : Nat) : Option (Store K V R E) := do
  let block ← store.rootBlock s
  match block.node with
  | .branch _ [child] =>
    let newRoot :=
      { block with
        node := child.withHeader { child.header with snapshotId := s }
        level := block.level - 1 }
    if (profile = .noCow ∨ child.header.snapshotId = s) ∧ sizes.fits newRoot then
      some (store.newRoot s newRoot)
    else none
  | _ => none

end Operations

def getCtrProperty (store : Store K V R E) (s : Nat) (key : K) : Option (Option V) :=
  (store.rootBlock s).map fun block => block.metadata.properties.find key

def getCtrReference (store : Store K V R E) (s : Nat) (key : K) : Option (Option R) :=
  (store.rootBlock s).map fun block => block.metadata.references.find key

def getNewBlockSize (store : Store K V R E) (s : Nat) : Option Nat :=
  (store.rootBlock s).map fun block => block.metadata.memoryBlockSize

def contents (store : Store K V R E) (s : Nat) : Option (Nat × Tree E) :=
  (store.rootBlock s).map fun block => (block.level, block.node.tree)

end Store

inductive Update (K V R : Type) where
  | setCtrProperty (key : K) (value : V)
  | setCtrProperties (entries : List (K × V))
  | removeCtrProperty (key : K)
  | setCtrReference (key : K) (value : R)
  | setCtrReferences (entries : List (K × R))
  | removeCtrReference (key : K)
  | setNewBlockSize (blockSize : Nat)
  | createNewRootBlock
  | removeRedundantRoot

inductive Op (K V R : Type) where
  | update (snapshot : Nat) (update : Update K V R)
  | commit (snapshot : Nat)
  | branch (parent snapshot : Nat)

variable {K V R E : Type} [LinearOrder K]

def applyUpdate (profile : Profile) (sizes : Sizes K V R E) (store : Store K V R E) (s : Nat) :
    Update K V R → Option (Store K V R E)
  | .setCtrProperty key value => store.setCtrProperty profile sizes s key value
  | .setCtrProperties entries => store.setCtrProperties profile sizes s entries
  | .removeCtrProperty key => store.removeCtrProperty profile sizes s key
  | .setCtrReference key value => store.setCtrReference profile sizes s key value
  | .setCtrReferences entries => store.setCtrReferences profile sizes s entries
  | .removeCtrReference key => store.removeCtrReference profile sizes s key
  | .setNewBlockSize blockSize => store.setNewBlockSize profile s blockSize
  | .createNewRootBlock => store.createNewRootBlock profile sizes s
  | .removeRedundantRoot => store.removeRedundantRoot profile sizes s

def step (profile : Profile) (sizes : Sizes K V R E) (store : Store K V R E) :
    Op K V R → Option (Store K V R E)
  | .update s update => if store.active s then applyUpdate profile sizes store s update else none
  | .commit s => some { store with active := Function.update store.active s false }
  | .branch parent s =>
    if store.active parent = false ∧ (store.roots parent).isSome ∧ store.roots s = none then
      some
        { store with
          roots := Function.update store.roots s (store.roots parent)
          active := Function.update store.active s true }
    else none

end Memoria.CtrRoot

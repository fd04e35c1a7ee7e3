import Mathlib.Logic.Function.Basic
import Memoria.SnapshotData

/-!
# The blocks of snapshots

What a snapshot does with its blocks: a block is read through the tree of the snapshot, is cloned
before its first update in the snapshot and written to in place from then on. Together with the
calls of the registry this is the whole in-memory store.

The pool of the blocks in use is not part of the model. It stays empty as long as every call gives
its blocks back and asks for ids that are there: an id that is not found keeps its slot for good, so
calls on such ids have no outcome here. Random block ids are arguments of the calls. The data of a
block is a number.
-/

namespace Memoria

open Lib

namespace PersistentTree

variable {K B : Type} [Inhabited K] [LinearOrder K] (layout : NodeLayout)

def newBlock (t : PersistentTree K B) (data : B) : PersistentTree K B :=
  { t with blocks := t.blocks.alloc { refs := 1, data := data } }

def setNewBlock (t : PersistentTree K B) (id : K) (data : B) : Option (PersistentTree K B) := do
  let value : Value := { blockPtr := t.blocks.next, snapshotId := t.snapshotId }
  let (t, old) ← (t.newBlock data).assign layout id value
  match old with
  | none => some t
  | some old => t.unrefBlock old.blockPtr

def getBlock (t : PersistentTree K B) (id : K) : Option (Option B) := do
  match ← t.find layout id with
  | none => some none
  | some value => do
      let block ← t.blocks.read value.blockPtr
      some (some block.data)

/-- `updateBlock` of the block that `findBlock` gives, and where the block may be written to. -/
def updateBlock (t : PersistentTree K B) (id : K) : Option (PersistentTree K B × Nat) := do
  let found ← t.find layout id
  let value ← found
  if value.snapshotId = t.snapshotId then
    some (t, value.blockPtr)
  else do
    let block ← t.blocks.read value.blockPtr
    let t' ← t.setNewBlock layout id block.data
    some (t', t.blocks.next)

def writeBlock (t : PersistentTree K B) (b : Nat) (write : B → B) : PersistentTree K B :=
  { t with blocks := t.blocks.modify b fun block => { block with data := write block.data } }

def changeBlock (t : PersistentTree K B) (id : K) (write : B → B) :
    Option (PersistentTree K B) := do
  let (t, b) ← t.updateBlock layout id
  some (t.writeBlock b write)

def resizeBlock (t : PersistentTree K B) (id : K) (resize : B → B) :
    Option (PersistentTree K B) := do
  let found ← t.getBlock layout id
  let data ← found
  t.setNewBlock layout id (resize data)

def cloneBlock (t : PersistentTree K B) (id newId : K) : Option (PersistentTree K B) := do
  let found ← t.getBlock layout id
  let data ← found
  t.setNewBlock layout newId data

end PersistentTree

inductive BlockOp where
  | createBlock (id data : Nat)
  | updateBlock (id : Nat) (write : Nat → Nat)
  | resizeBlock (id : Nat) (resize : Nat → Nat)
  | cloneBlock (id newId : Nat)
  | removeBlock (id : Nat)

namespace BlockOp

def run (layout : NodeLayout) (t : PersistentTree Nat Nat) : BlockOp → Option (PersistentTree Nat Nat)
  | .createBlock id data => t.setNewBlock layout id data
  | .updateBlock id write => t.changeBlock layout id write
  | .resizeBlock id resize => t.resizeBlock layout id resize
  | .cloneBlock id newId => t.cloneBlock layout id newId
  | .removeBlock id => (t.remove layout id).map Prod.fst

end BlockOp

namespace MemoryStore

def treeAt (s : MemoryStore TreeData Nat) (p : Nat) : Option (PersistentTree Nat Nat) := do
  let node ← s.history.read p
  let root ← node.root
  some (s.data.tree node.snapshotId root)

def putTree (s : MemoryStore TreeData Nat) (p : Nat) (t : PersistentTree Nat Nat) :
    MemoryStore TreeData Nat :=
  { s.modifyNode p fun node => { node with root := some t.root } with data := .ofTree t }

/-- A call on the blocks of a snapshot; `checkUpdateAllowed` refuses it unless the snapshot is
active. -/
def blockStep (layout : NodeLayout) (s : MemoryStore TreeData Nat) (handle : Nat) (op : BlockOp) :
    Option (MemoryStore TreeData Nat) := do
  let p ← s.handles.read handle
  let node ← s.history.read p
  if node.status = .active then
    let t ← s.treeAt p
    let t ← op.run layout t
    some (s.putTree p t)
  else
    some s

def getBlock (layout : NodeLayout) (s : MemoryStore TreeData Nat) (handle id : Nat) :
    Option (Option Nat) := do
  let p ← s.handles.read handle
  let t ← s.treeAt p
  t.getBlock layout id

end MemoryStore

inductive StoreOp where
  | call (op : MemoryStore.Op)
  | block (handle : Nat) (op : BlockOp)

def MemoryStore.storeStep (layout : NodeLayout) (s : MemoryStore TreeData Nat) :
    StoreOp → Option (MemoryStore TreeData Nat)
  | .call op => s.step TreeData.layer op
  | .block handle op => s.blockStep layout handle op

end Memoria

import Mathlib.Order.Nat
import Memoria.History
import Memoria.PersistentTree

/-!
# The data of snapshots

What the registry asks of the data of snapshots, given by their copy-on-write trees. Block ids are
numbers, and a block holds a number.
-/

namespace Memoria

open Lib

structure TreeData where
  nodes : Heap (Node Nat)
  blocks : Heap (Block Nat)
  nextNodeId : Nat

namespace TreeData

def tree (d : TreeData) (snapshotId root : Nat) : PersistentTree Nat Nat :=
  { nodes := d.nodes, blocks := d.blocks, nextNodeId := d.nextNodeId, root := root,
    snapshotId := snapshotId }

def ofTree (t : PersistentTree Nat Nat) : TreeData := ⟨t.nodes, t.blocks, t.nextNodeId⟩

def create (snapshotId : Nat) : TreeData × Nat × Nat :=
  let directory := 0
  let block : Value := ⟨0, snapshotId⟩
  (⟨Heap.empty.alloc
      { nodeId := 0, snapshotId := snapshotId, refs := 1, metadata := 1,
        body := .leaf [(directory, block)] },
    Heap.empty.alloc { refs := 1, data := 0 }, 1⟩, 0, directory)

def cloneRoot (d : TreeData) (snapshotId root : Nat) : Option (TreeData × Nat) := do
  let clone := d.nodes.next
  let t ← (d.tree snapshotId root).cloneNode root
  let t ← t.refNode clone
  some (ofTree t, clone)

def deleteTree (d : TreeData) (root : Nat) : Option TreeData :=
  ((d.tree 0 root).deleteTree).map ofTree

def layer : DataLayer TreeData Nat := ⟨create, cloneRoot, deleteTree⟩

end TreeData

end Memoria

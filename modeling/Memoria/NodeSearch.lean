import Memoria.Lib.Cells
import Memoria.PersistentTree

/-!
# The keys of a node of the copy-on-write tree

`NodeBase` has its keys in an array and the last key of every group of `NodeIndexSize` keys in
another one in front of it, which every change of the keys builds anew. It can be searched with the
index, in two ways, and without.
-/

namespace Memoria

open Lib

structure NodeKeys (K : Type) where
  size : ℕ
  index : ℕ → K
  keys : ℕ → K

namespace NodeLayout

variable (layout : NodeLayout)

def indexes : ℕ :=
  layout.nodeSize / layout.nodeIndexSize +
    if layout.nodeSize % layout.nodeIndexSize = 0 then 0 else 1

end NodeLayout

def copyBuffer {K : Type} (src : ℕ → K) (start : ℕ) (dst : ℕ → K) (stop size : ℕ) : ℕ → K :=
  written dst stop size fun i => src (start + i)

namespace NodeKeys

variable {K : Type}

section Changes

variable [Inhabited K] (layout : NodeLayout)

def maxKey (node : NodeKeys K) : K :=
  if node.size = 0 then node.index (layout.indexes - 1) else node.keys (node.size - 1)

/-- In an empty node the last element is minus one, whose slot is the first one, or with groups of
one key the word in front of `index_`. -/
def reindex (node : NodeKeys K) : NodeKeys K :=
  let cleared : NodeKeys K := { node with index := fun _ => default }
  let max :=
    if node.size % layout.nodeIndexSize = 0 then node.size
    else node.size - node.size % layout.nodeIndexSize
  let index := (List.range (max / layout.nodeIndexSize)).foldl
    (fun index c => Function.update index c
      (node.keys (c * layout.nodeIndexSize + layout.nodeIndexSize - 1)))
    cleared.index
  if node.size = 0 ∧ layout.nodeIndexSize = 1 then { node with index := index }
  else
    { node with
      index := Function.update index ((node.size - 1) / layout.nodeIndexSize)
        (cleared.maxKey layout) }

def insertKey (node : NodeKeys K) (idx : ℕ) (key : K) : NodeKeys K :=
  let keys := copyBuffer node.keys idx node.keys (idx + 1) (node.size - idx)
  reindex layout { node with size := node.size + 1, keys := Function.update keys idx key }

def removeKeys (node : NodeKeys K) (start stop : ℕ) : NodeKeys K :=
  let keys := copyBuffer node.keys stop node.keys start (node.size - stop)
  reindex layout { node with
    size := node.size - (stop - start)
    keys := written keys (node.size - (stop - start)) (stop - start) fun _ => default }

def splitKeysTo (node : NodeKeys K) (start : ℕ) (other : NodeKeys K) : NodeKeys K × NodeKeys K :=
  (reindex layout { node with
      size := node.size - (node.size - start)
      keys := written node.keys start (node.size - start) fun _ => default },
    reindex layout { other with
      size := other.size + (node.size - start)
      keys := copyBuffer node.keys start other.keys 0 (node.size - start) })

def mergeKeysFrom (node other : NodeKeys K) : NodeKeys K × NodeKeys K :=
  (reindex layout { node with
      size := node.size + other.size
      keys := copyBuffer other.keys 0 node.keys node.size other.size },
    reindex layout { other with size := 0 })

def setKey (node : NodeKeys K) (idx : ℕ) (key : K) : NodeKeys K :=
  { node with keys := Function.update node.keys idx key }

end Changes

section Searches

variable [LinearOrder K] (layout : NodeLayout)

def lastIdx (node : NodeKeys K) : ℕ :=
  node.size / layout.nodeIndexSize + if node.size % layout.nodeIndexSize = 0 then 0 else 1

def findKey (node : NodeKeys K) (key : K) : ℕ :=
  match (List.range (node.lastIdx layout)).find? fun c => decide (key ≤ node.index c) with
  | none => node.size
  | some idx =>
      let start := idx * layout.nodeIndexSize
      match (List.range layout.nodeIndexSize).find? fun c =>
          decide (key ≤ node.keys (start + c)) with
      | none => node.size
      | some c => start + c

def findKey2 (node : NodeKeys K) (key : K) : ℕ :=
  let idx := (List.range (node.lastIdx layout)).foldl
    (fun idx c => idx + if key > node.index c then 1 else 0) 0
  if idx < node.lastIdx layout then
    let start := idx * layout.nodeIndexSize
    let max :=
      if start + layout.nodeIndexSize < node.size then start + layout.nodeIndexSize else node.size
    (List.range (max - start)).foldl
      (fun idx c => idx + if key > node.keys (start + c) then 1 else 0) start
  else node.size

def lowerBound (keys : ℕ → K) (key : K) (first count : ℕ) : ℕ :=
  if _ : count = 0 then first
  else
    if keys (first + count / 2) < key then
      lowerBound keys key (first + count / 2 + 1) (count - (count / 2 + 1))
    else lowerBound keys key first (count / 2)
termination_by count

def findKey3 (node : NodeKeys K) (key : K) : ℕ := lowerBound node.keys key 0 node.size

def first (node : NodeKeys K) (key : K) : ℕ :=
  ((List.range node.size).find? fun i => decide (key ≤ node.keys i)).getD node.size

end Searches

/-- The calls of the tree. `updateKey` gives a parent the greatest key of a child, as
`update_keys_up` and `split_path` do; `mergeChild` does it for a child that has been merged with the
next one, whose key goes, as `merge_paths` does. -/
inductive Op (K : Type) where
  | insertKey (node idx : ℕ) (key : K)
  | removeKeys (node start stop : ℕ)
  | splitKeysTo (node start other : ℕ)
  | mergeKeysFrom (node other : ℕ)
  | updateKey (parent idx child : ℕ)
  | mergeChild (parent idx child : ℕ)
  | reindex (node : ℕ)

abbrev Nodes (K : Type) : Type := ℕ → NodeKeys K

def Nodes.new [Inhabited K] : Nodes K := fun _ => ⟨0, fun _ => default, fun _ => default⟩

section Runs

variable [LinearOrder K] [Inhabited K] (layout : NodeLayout)

def Between (node : NodeKeys K) (idx stop : ℕ) (key : K) : Prop :=
  (∀ i < idx, node.keys i ≤ key) ∧ ∀ i < node.size, stop ≤ i → key ≤ node.keys i

instance (node : NodeKeys K) (idx stop : ℕ) (key : K) : Decidable (node.Between idx stop key) :=
  inferInstanceAs (Decidable (_ ∧ _))

/-- What the tree promises: indexes in the node, room in it, keys in order. A split goes to a new
node. The key of a child with keys goes where it belongs in the parent. -/
def Op.Promised (nodes : Nodes K) : Op K → Prop
  | .insertKey node idx key => idx ≤ (nodes node).size ∧ (nodes node).size < layout.nodeSize ∧
      (nodes node).Between idx idx key
  | .removeKeys node start stop => start ≤ stop ∧ stop ≤ (nodes node).size
  | .splitKeysTo node start other => start ≤ (nodes node).size ∧ (nodes other).size = 0 ∧
      node ≠ other
  | .mergeKeysFrom node other => (nodes node).size + (nodes other).size ≤ layout.nodeSize ∧
      node ≠ other ∧
      ∀ i < (nodes node).size, ∀ j < (nodes other).size, (nodes node).keys i ≤ (nodes other).keys j
  | .updateKey parent idx child => idx < (nodes parent).size ∧
      (0 < (nodes child).size →
        (nodes parent).Between idx (idx + 1) ((nodes child).maxKey layout))
  | .mergeChild parent idx child => idx + 1 < (nodes parent).size ∧
      (0 < (nodes child).size →
        (nodes parent).Between idx (idx + 2) ((nodes child).maxKey layout))
  | .reindex _ => True

instance (nodes : Nodes K) (op : Op K) : Decidable (op.Promised layout nodes) := by
  cases op <;> unfold Op.Promised <;> infer_instance

def step (nodes : Nodes K) (op : Op K) : Option (Nodes K) :=
  if op.Promised layout nodes then
    match op with
    | .insertKey node idx key =>
        some (Function.update nodes node ((nodes node).insertKey layout idx key))
    | .removeKeys node start stop =>
        some (Function.update nodes node ((nodes node).removeKeys layout start stop))
    | .splitKeysTo node start other =>
        let halves := (nodes node).splitKeysTo layout start (nodes other)
        some (Function.update (Function.update nodes node halves.1) other halves.2)
    | .mergeKeysFrom node other =>
        let merged := (nodes node).mergeKeysFrom layout (nodes other)
        some (Function.update (Function.update nodes node merged.1) other merged.2)
    | .updateKey parent idx child =>
        some (Function.update nodes parent
          (((nodes parent).setKey idx ((nodes child).maxKey layout)).reindex layout))
    | .mergeChild parent idx child =>
        some (Function.update nodes parent
          (((nodes parent).setKey idx ((nodes child).maxKey layout)).removeKeys layout (idx + 1)
            (idx + 2)))
    | .reindex node => some (Function.update nodes node ((nodes node).reindex layout))
  else none

def Op.FromKeys (nodes : Nodes K) : Op K → Prop
  | .updateKey _ _ child => 0 < (nodes child).size
  | .mergeChild _ _ child => 0 < (nodes child).size
  | _ => True

def Nodes.Searchable (nodes : Nodes K) : Prop :=
  ∀ node key, (nodes node).findKey layout key = (nodes node).first key ∧
    (nodes node).findKey2 layout key = (nodes node).first key ∧
    (nodes node).findKey3 key = (nodes node).first key

end Runs

end NodeKeys

end Memoria

import Mathlib.Order.Defs.LinearOrder
import Memoria.Lib.Heap
import Memoria.Lib.LevelTree

/-!
# The copy-on-write tree of a snapshot

Every snapshot maps block ids to data blocks through a B+tree without leaf links whose nodes it may
share with other snapshots. Nodes and data blocks count the places that hold them, and an update
first clones the nodes on its path that are shared.

Nodes live in one heap for all snapshots. The two arrays of a node are one list of entries, and
`index_` is a function of the keys because every change of the keys ends in `reindex`. A call gives
`none` where the code has no defined behaviour: a dangling pointer, an index of minus one, an array
written past its end, a failed assertion. Random node ids are drawn from a counter.
-/

namespace Memoria

open Lib

structure Value where
  blockPtr : Nat
  snapshotId : Nat
deriving DecidableEq, Repr

abbrev Body (K : Type) : Type := Content K Value

structure Node (K : Type) where
  nodeId : Nat
  snapshotId : Nat
  refs : Nat
  /-- The number of entries of the whole tree, kept in its root. -/
  metadata : Int
  body : Body K
deriving Repr

structure Block (B : Type) where
  refs : Int
  data : B
deriving Repr

structure NodeLayout where
  nodeSize : Nat
  nodeIndexSize : Nat
  two_le_nodeSize : 2 ≤ nodeSize
  nodeIndexSize_pos : 0 < nodeIndexSize

def NodeLayout.store : NodeLayout := ⟨1024, 32, by decide, by decide⟩

def pathSize : Nat := 8

namespace Body

variable {K : Type}

def size (b : Body K) : Nat := (Content.keys b).length

/-- `keys_[size_ - 1]`. In an empty node this reads the last slot of `index_`, which the last
`reindex` has cleared. -/
def maxKey [Inhabited K] (b : Body K) : K := (Content.keys b).getLastD default

def splitTo (b : Body K) (start : Nat) : Body K × Body K :=
  match b with
  | .leaf entries => (.leaf (entries.take start), .leaf (entries.drop start))
  | .branch entries => (.branch (entries.take start), .branch (entries.drop start))

def mergeFrom : Body K → Body K → Option (Body K)
  | .leaf entries, .leaf other => some (.leaf (entries ++ other))
  | .branch entries, .branch other => some (.branch (entries ++ other))
  | _, _ => none

def index [Inhabited K] (layout : NodeLayout) (keys : List K) : List K :=
  (List.range ((keys.length + layout.nodeIndexSize - 1) / layout.nodeIndexSize)).map fun c =>
    keys.getD (min ((c + 1) * layout.nodeIndexSize) keys.length - 1) default

def findKey [Inhabited K] [LinearOrder K] (layout : NodeLayout) (keys : List K) (key : K) : Nat :=
  match (index layout keys).findIdx? fun k => decide (key ≤ k) with
  | none => keys.length
  | some c =>
      let start := c * layout.nodeIndexSize
      match ((keys.drop start).take layout.nodeIndexSize).findIdx? fun k => decide (key ≤ k) with
      | none => keys.length
      | some d => start + d

end Body

def findChildNode {K : Type} (entries : List (K × Nat)) (child : Nat) : Option Nat :=
  entries.findIdx? fun e => decide (e.2 = child)

structure PersistentTree (K B : Type) where
  nodes : Heap (Node K)
  blocks : Heap (Block B)
  nextNodeId : Nat
  root : Nat
  snapshotId : Nat

namespace PersistentTree

variable {K B : Type}

def leafEntries (t : PersistentTree K B) (p : Nat) : Option (List (K × Value)) := do
  let node ← t.nodes.read p
  match node.body with
  | .leaf entries => some entries
  | .branch _ => none

def branchEntries (t : PersistentTree K B) (p : Nat) : Option (List (K × Nat)) := do
  let node ← t.nodes.read p
  match node.body with
  | .leaf _ => none
  | .branch entries => some entries

def setBody (t : PersistentTree K B) (p : Nat) (body : Body K) : PersistentTree K B :=
  { t with nodes := t.nodes.modify p fun node => { node with body := body } }

def refNode (t : PersistentTree K B) (p : Nat) : Option (PersistentTree K B) := do
  let _ ← t.nodes.read p
  some { t with nodes := t.nodes.modify p fun node => { node with refs := node.refs + 1 } }

def unrefNode (t : PersistentTree K B) (p : Nat) : Option (PersistentTree K B) := do
  let node ← t.nodes.read p
  guard (0 < node.refs)
  some { t with nodes := t.nodes.modify p fun node => { node with refs := node.refs - 1 } }

def removeNode (t : PersistentTree K B) (p : Nat) : PersistentTree K B :=
  { t with nodes := t.nodes.free p }

def createNode (t : PersistentTree K B) (metadata : Int) (body : Body K) : PersistentTree K B :=
  { t with
    nodes := t.nodes.alloc
      { nodeId := t.nextNodeId, snapshotId := t.snapshotId, refs := 0, metadata := metadata,
        body := body }
    nextNodeId := t.nextNodeId + 1 }

def addSize (t : PersistentTree K B) (delta : Int) : PersistentTree K B :=
  { t with
    nodes := t.nodes.modify t.root fun node => { node with metadata := node.metadata + delta } }

def refBlock (t : PersistentTree K B) (b : Nat) : Option (PersistentTree K B) := do
  let _ ← t.blocks.read b
  some { t with blocks := t.blocks.modify b fun block => { block with refs := block.refs + 1 } }

def unrefBlock (t : PersistentTree K B) (b : Nat) : Option (PersistentTree K B) := do
  let block ← t.blocks.read b
  if block.refs = 1 then
    some { t with blocks := t.blocks.free b }
  else
    some { t with blocks := t.blocks.modify b fun block => { block with refs := block.refs - 1 } }

def setRoot (t : PersistentTree K B) (root : Nat) : Option (PersistentTree K B) := do
  let t ← t.unrefNode t.root
  { t with root := root }.refNode root

def refChildren (t : PersistentTree K B) (entries : List (K × Nat)) :
    Option (PersistentTree K B) :=
  entries.foldlM (fun t e => t.refNode e.2) t

def refBlocks (t : PersistentTree K B) (entries : List (K × Value)) :
    Option (PersistentTree K B) :=
  entries.foldlM (fun t e => t.refBlock e.2.blockPtr) t

def cloneNode (t : PersistentTree K B) (p : Nat) : Option (PersistentTree K B) := do
  let node ← t.nodes.read p
  let t := t.createNode node.metadata node.body
  match node.body with
  | .leaf entries => t.refBlocks entries
  | .branch entries => t.refChildren entries

def clonePath (t : PersistentTree K B) : List Nat → Option (PersistentTree K B × List Nat)
  | node :: parent :: rest => do
      let (t, upper) ← t.clonePath (parent :: rest)
      let parent ← upper.head?
      let entries ← t.branchEntries parent
      let parentIdx ← findChildNode entries node
      let clone := t.nodes.next
      let t ← t.cloneNode node
      let t ← t.unrefNode node
      let t := t.setBody parent (.branch (entries.modify parentIdx fun e => (e.1, clone)))
      let t ← t.refNode clone
      some (t, clone :: upper)
  | path => some (t, path)

def updatePath (t : PersistentTree K B) (path : List Nat) :
    Option (PersistentTree K B × List Nat) := do
  let nodes ← path.dropLast.mapM t.nodes.read
  if nodes.any fun node => decide (1 < node.refs) then t.clonePath path else some (t, path)

section Keys

variable [Inhabited K] (layout : NodeLayout)

def updateKeysUp (t : PersistentTree K B) : List Nat → Nat → Option (PersistentTree K B)
  | node :: parent :: rest, insertionPoint => do
      let n ← t.nodes.read node
      if n.body.size ≤ insertionPoint + 1 then
        let entries ← t.branchEntries parent
        let parentIdx ← findChildNode entries node
        let t := t.setBody parent (.branch (entries.modify parentIdx fun e => (n.body.maxKey, e.2)))
        t.updateKeysUp (parent :: rest) parentIdx
      else
        some t
  | _, _ => some t

def insertChildNode (t : PersistentTree K B) (p idx child : Nat) : Option (PersistentTree K B) := do
  let n ← t.nodes.read child
  let entries ← t.branchEntries p
  guard (entries.length < layout.nodeSize)
  let t := t.setBody p (.branch (entries.insertIdx idx (n.body.maxKey, child)))
  t.refNode child

def splitPath (t : PersistentTree K B) :
    Nat → List Nat → Option (PersistentTree K B × List Nat × List Nat)
  | _, [] => none
  | level, [node] => do
      let n ← t.nodes.read node
      let (left, right) := n.body.splitTo (n.body.size / 2)
      let rightNode := t.nodes.next
      let t := (t.createNode 0 right).setBody node left
      let root ← t.nodes.read t.root
      let newRoot := t.nodes.next
      let t := t.createNode root.metadata (.branch [])
      let t ← t.insertChildNode layout newRoot 0 node
      let t ← t.insertChildNode layout newRoot 1 rightNode
      guard (level + 2 ≤ pathSize)
      let t ← t.setRoot newRoot
      some (t, [node, newRoot], [rightNode, newRoot])
  | level, node :: parent :: rest => do
      let n ← t.nodes.read node
      let (left, right) := n.body.splitTo (n.body.size / 2)
      let rightNode := t.nodes.next
      let t := (t.createNode 0 right).setBody node left
      let entries ← t.branchEntries parent
      let parentIdx ← findChildNode entries node
      let t := t.setBody parent (.branch (entries.modify parentIdx fun e => (left.maxKey, e.2)))
      let t ← t.updateKeysUp (parent :: rest) parentIdx
      if entries.length < layout.nodeSize then
        let t ← t.insertChildNode layout parent (parentIdx + 1) rightNode
        let t ← t.updateKeysUp (parent :: rest) (parentIdx + 1)
        some (t, node :: parent :: rest, rightNode :: parent :: rest)
      else
        let (t, path, next) ← t.splitPath (level + 1) (parent :: rest)
        let parentSize ← (t.nodes.read parent).map fun p => p.body.size
        if parentSize ≤ parentIdx then
          let nextParent ← next.head?
          let t ← t.insertChildNode layout nextParent (parentIdx - parentSize + 1) rightNode
          let t ← t.updateKeysUp next (parentIdx - parentSize + 1)
          some (t, node :: nextParent :: path.tail, rightNode :: next)
        else
          let t ← t.insertChildNode layout parent (parentIdx + 1) rightNode
          let t ← t.updateKeysUp path (parentIdx + 1)
          some (t, node :: path, rightNode :: parent :: next.tail)

end Keys

structure Iter where
  path : List Nat
  idx : Nat
deriving DecidableEq, Repr

section Find

variable [Inhabited K] [LinearOrder K] (layout : NodeLayout)

def findChild (entries : List (K × Nat)) (key : K) : Option Nat :=
  let idx := Body.findKey layout (entries.map Prod.fst) key
  (entries[if idx = entries.length then entries.length - 1 else idx]?).map Prod.snd

def findValueIn (t : PersistentTree K B) (key : K) : Nat → Nat → Option (Option Value)
  | 0, _ => none
  | fuel + 1, p => do
      let node ← t.nodes.read p
      match node.body with
      | .branch entries => do
          let child ← findChild layout entries key
          t.findValueIn key fuel child
      | .leaf entries =>
          let idx := Body.findKey layout (entries.map Prod.fst) key
          match entries[idx]? with
          | some e => some (if e.1 = key then some e.2 else none)
          | none => some none

/-- The nodes on the way to a leaf are pairwise different, so their number bounds the loop. -/
def find (t : PersistentTree K B) (key : K) : Option (Option Value) :=
  t.findValueIn layout key t.nodes.next t.root

def locateIn (t : PersistentTree K B) (key : K) : Nat → Nat → List Nat → Option Iter
  | 0, _, _ => none
  | fuel + 1, p, path => do
      let node ← t.nodes.read p
      match node.body with
      | .branch entries => do
          let child ← findChild layout entries key
          t.locateIn key fuel child (p :: path)
      | .leaf entries =>
          some ⟨p :: path, Body.findKey layout (entries.map Prod.fst) key⟩

def locate (t : PersistentTree K B) (key : K) : Option Iter :=
  t.locateIn layout key pathSize t.root []

end Find

def locateBeginIn (t : PersistentTree K B) : Nat → Nat → List Nat → Option Iter
  | 0, _, _ => none
  | fuel + 1, p, path => do
      let node ← t.nodes.read p
      match node.body with
      | .branch entries => do
          let child ← entries.head?.map Prod.snd
          t.locateBeginIn fuel child (p :: path)
      | .leaf _ => some ⟨p :: path, 0⟩

def locateBegin (t : PersistentTree K B) : Option Iter := t.locateBeginIn pathSize t.root []

def getNextNode (t : PersistentTree K B) : List Nat → Option (Option (List Nat))
  | node :: parent :: rest => do
      let entries ← t.branchEntries parent
      let next := match findChildNode entries node with
        | some parentIdx => parentIdx + 1
        | none => 0
      match entries[next]? with
      | some e => some (some (e.2 :: parent :: rest))
      | none => do
          match ← t.getNextNode (parent :: rest) with
          | none => some none
          | some upper => do
              let nextParent ← upper.head?
              let entries ← t.branchEntries nextParent
              let first ← entries.head?
              some (some (first.2 :: upper))
  | _ => some none

def getPrevNode (t : PersistentTree K B) : List Nat → Option (Option (List Nat))
  | node :: parent :: rest => do
      let entries ← t.branchEntries parent
      match findChildNode entries node with
      | some (idx + 1) => do
          let e ← entries[idx]?
          some (some (e.2 :: parent :: rest))
      | _ => do
          match ← t.getPrevNode (parent :: rest) with
          | none => some none
          | some upper => do
              let prevParent ← upper.head?
              let entries ← t.branchEntries prevParent
              let last ← entries.getLast?
              some (some (last.2 :: upper))
  | _ => some none

def isEnd (t : PersistentTree K B) (iter : Iter) : Option Bool := do
  let leaf ← iter.path.head?
  let entries ← t.leafEntries leaf
  some (decide (entries.length ≤ iter.idx))

def next (t : PersistentTree K B) (iter : Iter) : Option Iter := do
  let leaf ← iter.path.head?
  let entries ← t.leafEntries leaf
  if iter.idx + 1 < entries.length then
    some { iter with idx := iter.idx + 1 }
  else
    match ← t.getNextNode iter.path with
    | some path => some ⟨path, 0⟩
    | none => some { iter with idx := iter.idx + 1 }

def traverse (t : PersistentTree K B) : Nat → Iter → Option (List (K × Value))
  | 0, _ => none
  | fuel + 1, iter => do
      let leaf ← iter.path.head?
      let entries ← t.leafEntries leaf
      match entries[iter.idx]? with
      | none => some []
      | some e => do
          let iter ← t.next iter
          let rest ← t.traverse fuel iter
          some (e :: rest)

section Update

variable [Inhabited K] (layout : NodeLayout)

def size (t : PersistentTree K B) (p : Nat) : Option Nat := (t.nodes.read p).map fun n => n.body.size

def canMergePaths (t : PersistentTree K B) : List Nat → List Nat → Option Bool
  | node :: parent :: rest, right :: nextParent :: nextRest => do
      let size ← t.size node
      let nextSize ← t.size right
      if size + nextSize ≤ layout.nodeSize then
        if parent = nextParent then
          let entries ← t.branchEntries parent
          let idx := findChildNode entries node
          let nextIdx := findChildNode entries right
          some (decide (idx.elim 0 (· + 1) + 1 = nextIdx.elim 0 (· + 1)))
        else
          t.canMergePaths (parent :: rest) (nextParent :: nextRest)
      else
        some false
  | _, _ => none

/-- One level of `merge_paths`: `right` goes into `node`, its slot in the parent goes away, and a
root with one child left is replaced by it. -/
def mergeNodes (t : PersistentTree K B) (node right : Nat) (upper : List Nat) :
    Option (PersistentTree K B × List Nat) := do
  let parent ← upper.head?
  let entries ← t.branchEntries parent
  let parentIdx ← findChildNode entries node
  let n ← t.nodes.read node
  let r ← t.nodes.read right
  let merged ← n.body.mergeFrom r.body
  guard (merged.size ≤ layout.nodeSize)
  let t := (t.setBody node merged).removeNode right
  guard (parentIdx + 1 < entries.length)
  let entries := (entries.modify parentIdx fun e => (merged.maxKey, e.2)).eraseIdx (parentIdx + 1)
  let t := t.setBody parent (.branch entries)
  let t ← t.updateKeysUp upper parentIdx
  if parent = t.root ∧ entries.length = 1 then
    let root ← t.nodes.read parent
    let t := { t with
      nodes := t.nodes.modify node fun n => { n with metadata := root.metadata } }
    let t ← t.setRoot node
    let t ← t.unrefNode node
    let t := t.removeNode parent
    let n ← t.nodes.read node
    guard (n.refs = 1)
    some (t, [])
  else
    some (t, upper)

/-- The paths from `level` on. What is left of `next` after the merge is read by nobody. -/
def mergePaths (t : PersistentTree K B) :
    List Nat → List Nat → Option (PersistentTree K B × List Nat)
  | node :: parent :: rest, right :: nextParent :: nextRest => do
      if parent = nextParent then
        let (t, upper) ← t.mergeNodes layout node right (parent :: rest)
        some (t, node :: upper)
      else
        let (t, upper) ← t.mergePaths (parent :: rest) (nextParent :: nextRest)
        let (t, upper) ← t.mergeNodes layout node right upper
        some (t, node :: upper)
  | _, _ => none

def insertLeaf (t : PersistentTree K B) (leaf idx : Nat) (key : K) (value : Value) :
    Option (PersistentTree K B) := do
  let entries ← t.leafEntries leaf
  guard (entries.length < layout.nodeSize)
  some (t.setBody leaf (.leaf (entries.insertIdx idx (key, value))))

def insertAt (t : PersistentTree K B) (path : List Nat) (idx : Nat) (key : K) (value : Value) :
    Option (PersistentTree K B) := do
  let leaf ← path.head?
  let entries ← t.leafEntries leaf
  if entries.length < layout.nodeSize then
    t.insertLeaf layout leaf idx key value
  else do
    let (t, path, next) ← t.splitPath layout 0 path
    let left ← t.leafEntries leaf
    if left.length ≤ idx then do
      let right ← next.head?
      let t ← t.insertLeaf layout right (idx - left.length) key value
      t.updateKeysUp next (idx - left.length)
    else do
      let t ← t.insertLeaf layout leaf idx key value
      t.updateKeysUp path idx

def insertTo (t : PersistentTree K B) (iter : Iter) (key : K) (value : Value) :
    Option (PersistentTree K B) := do
  let (t, path) ← t.updatePath iter.path
  let t ← t.insertAt layout path iter.idx key value
  some (t.addSize 1)

def mergeAfterRemove (t : PersistentTree K B) (path : List Nat) : Option (PersistentTree K B) := do
  let leaf ← path.head?
  let entries ← t.leafEntries leaf
  if entries.length ≤ layout.nodeSize / 2 then
    match ← t.getNextNode path with
    | some next =>
        if ← t.canMergePaths layout path next then do
          let (t, next) ← t.updatePath next
          let (t, _) ← t.mergePaths layout path next
          some t
        else
          some t
    | none => do
        match ← t.getPrevNode path with
        | some prev =>
            if ← t.canMergePaths layout prev path then do
              let (t, prev) ← t.updatePath prev
              let (t, _) ← t.mergePaths layout prev path
              some t
            else
              some t
        | none => some t
  else
    some t

def removeFrom (t : PersistentTree K B) (iter : Iter) : Option (PersistentTree K B) := do
  let (t, path) ← t.updatePath iter.path
  let leaf ← path.head?
  let entries ← t.leafEntries leaf
  let e ← entries[iter.idx]?
  let t ← t.unrefBlock e.2.blockPtr
  let t := t.setBody leaf (.leaf (entries.eraseIdx iter.idx))
  let t ← t.updateKeysUp path iter.idx
  let t := t.addSize (-1)
  t.mergeAfterRemove layout path

end Update

section Api

variable [Inhabited K] [LinearOrder K] (layout : NodeLayout)

def assign (t : PersistentTree K B) (key : K) (value : Value) :
    Option (PersistentTree K B × Option Value) := do
  let iter ← t.locate layout key
  let leaf ← iter.path.head?
  let entries ← t.leafEntries leaf
  match entries[iter.idx]? with
  | some e =>
      if e.1 = key then do
        let (t, path) ← t.updatePath iter.path
        let leaf ← path.head?
        let entries ← t.leafEntries leaf
        some (t.setBody leaf (.leaf (entries.modify iter.idx fun e => (e.1, value))), some e.2)
      else do
        let t ← t.insertTo layout iter key value
        some (t, none)
  | none => do
      let t ← t.insertTo layout iter key value
      some (t, none)

def remove (t : PersistentTree K B) (key : K) : Option (PersistentTree K B × Bool) := do
  let iter ← t.locate layout key
  if ← t.isEnd iter then
    some (t, false)
  else do
    let t ← t.removeFrom layout iter
    some (t, true)

end Api

def unrefBlocks (t : PersistentTree K B) (entries : List (K × Value)) :
    Option (PersistentTree K B) :=
  entries.foldlM (fun t e => t.unrefBlock e.2.blockPtr) t

def deleteNode (t : PersistentTree K B) : Nat → Nat → Option (PersistentTree K B)
  | 0, _ => none
  | fuel + 1, p => do
      let node ← t.nodes.read p
      let t ← t.unrefNode p
      if node.refs = 1 then
        match node.body with
        | .leaf entries => do
            let t ← t.unrefBlocks entries
            some (t.removeNode p)
        | .branch entries => do
            let t ← entries.foldlM (fun t e => t.deleteNode fuel e.2) t
            some (t.removeNode p)
      else
        some t

def deleteTree (t : PersistentTree K B) : Option (PersistentTree K B) :=
  t.deleteNode t.nodes.next t.root

end PersistentTree

end Memoria

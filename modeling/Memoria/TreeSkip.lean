import Mathlib.Data.Int.Notation
import Memoria.BTree

/-!
# Moving iterators

`iter_skip_fw` and `iter_skip_bw` of the containers with one stream. The entries of a branch hold the
sizes of its children, the leaves hold lists. A walker sums up what it has passed of the distance it
is to go; `none` stands for an error. The searches through the sizes of a branch are those of a list.
The two directions of `ctr_find_fw` and `ctr_find_bw` are functions of their own here, and what they
do to the cache of the iterator is left out. Distances are `int64_t` in the source: the distance of a
move and the position it starts from in its leaf are taken to add up to less than 2 ^ 63.
-/

namespace Memoria.BTree

variable {I α : Type}

abbrev SizedNode (I α : Type) : Type := Node I ℕ (List α)

abbrev TreePath (I α : Type) : Type := List (SizedNode I α)

structure StreamOpResult where
  localPos : ℤ
  outOfRange : Bool
  empty : Bool

structure SkipWalker where
  sum : ℤ
  target : ℤ

structure FindResult where
  idx : ℤ
  pass : Bool

abbrev Walked (I α : Type) : Type := FindResult × TreePath I α × SkipWalker

structure Iter (I α : Type) where
  path : TreePath I α
  localPos : ℤ

def ctrGetNodeChild (store : Store I ℕ (List α)) (node : SizedNode I α) (idx : ℤ) :
    Option (SizedNode I α) :=
  if idx < 0 then none else (node.entries[idx.toNat]?).bind fun e => store e.2

def ctrGetChildIdx [DecidableEq I] (parent : SizedNode I α) (id : I) : Option ℕ :=
  parent.entries.findIdx? fun e => e.2 = id

def values (node : SizedNode I α) : List ℕ := node.entries.map Prod.fst

def leafSize (node : SizedNode I α) : ℕ :=
  match node.body with
  | .leaf data => data.length
  | .branch _ => 0

def SkipWalker.findLeafFw (walker : SkipWalker) (size : ℕ) (start : ℤ) :
    StreamOpResult × SkipWalker :=
  let offset := walker.target - walker.sum
  if start + offset < size then
    (⟨start + offset, false, false⟩, { walker with sum := walker.sum + offset })
  else (⟨size, true, false⟩, { walker with sum := walker.sum + (size - start) })

/-- The first position up to which the sum exceeds `k`, and the sum before it. -/
def scanGT (k : ℤ) : List ℕ → ℤ → ℤ → ℤ × ℤ
  | [], i, sum => (i, sum)
  | v :: vs, i, sum => if k < sum + v then (i, sum) else scanGT k vs (i + 1) (sum + v)

def SkipWalker.findNonLeafFw (walker : SkipWalker) (tree : List ℕ) (start : ℤ) :
    StreamOpResult × SkipWalker :=
  if start < tree.length then
    let result := scanGT (walker.target - walker.sum) (tree.drop start.toNat) start 0
    (⟨result.1, decide (tree.length ≤ result.1), false⟩,
      { walker with sum := walker.sum + result.2 })
  else (⟨tree.length, true, true⟩, walker)

def SkipWalker.dispatchFw (walker : SkipWalker) (node : SizedNode I α) (start : ℤ) :
    StreamOpResult × SkipWalker :=
  if node.isLeaf then walker.findLeafFw (leafSize node) start
  else walker.findNonLeafFw (values node) start

def SkipWalker.fixTarget (walker : SkipWalker) (node : SizedNode I α) (idx : ℤ) :
    Option SkipWalker :=
  if idx < 0 then none
  else ((values node)[idx.toNat]?).map fun (value : ℕ) => { walker with sum := walker.sum - value }

def ctrFindFwDown (store : Store I ℕ (List α)) :
    ℕ → TreePath I α → SizedNode I α → SkipWalker → Option (Walked I α)
  | level, endPath, node, walker =>
    let (result, walker) := walker.dispatchFw node 0
    if node.isLeaf then some (⟨result.localPos, true⟩, endPath, walker)
    else
      match level with
      | 0 => none
      | level + 1 =>
        if !result.outOfRange then do
          let child ← ctrGetNodeChild store node result.localPos
          ctrFindFwDown store level (endPath.set level child) child walker
        else do
          let walker ← walker.fixTarget node (result.localPos - 1)
          let child ← ctrGetNodeChild store node (result.localPos - 1)
          ctrFindFwDown store level (endPath.set level child) child walker

def ctrFindFwUp [DecidableEq I] (store : Store I ℕ (List α)) :
    TreePath I α → ℕ → TreePath I α → SizedNode I α → ℤ → SkipWalker → Option (Walked I α)
  | above, level, endPath, node, start, walker =>
    let (result, walker) := walker.dispatchFw node start
    if !result.outOfRange then
      if node.isLeaf then some (⟨result.localPos, true⟩, endPath, walker)
      else do
        let child ← ctrGetNodeChild store node result.localPos
        ctrFindFwDown store (level - 1) (endPath.set (level - 1) child) child walker
    else do
      let (up, endPath, walker) ←
        (if node.isRoot then some (⟨start, false⟩, endPath, walker)
        else
          match above with
          | [] => none
          | parent :: above =>
            (ctrGetChildIdx parent node.id).bind fun parent_idx =>
              ctrFindFwUp store above (level + 1) endPath parent (parent_idx + 1) walker)
      if up.pass then some (up, endPath, walker)
      else if node.isLeaf then some (⟨result.localPos, true⟩, endPath, walker)
      else if !result.empty then do
        let walker ← walker.fixTarget node (result.localPos - 1)
        let child ← ctrGetNodeChild store node (result.localPos - 1)
        ctrFindFwDown store (level - 1) (endPath.set (level - 1) child) child walker
      else some (⟨start, false⟩, endPath, walker)

inductive Start where
  | pos (p : ℤ)
  | max

def Start.clamp (start : Start) (size last : ℤ) : ℤ :=
  match start with
  | .pos p => if size < p then last else p
  | .max => last

def SkipWalker.findLeafBw (walker : SkipWalker) (size : ℕ) (start : Start) :
    StreamOpResult × SkipWalker :=
  let start := start.clamp size size
  if 0 ≤ start then
    let offset := walker.target - walker.sum
    if 0 ≤ start - offset then
      (⟨start - offset, false, false⟩, { walker with sum := walker.sum + offset })
    else (⟨-1, true, false⟩, { walker with sum := walker.sum + start })
  else (⟨-1, true, true⟩, walker)

/-- The last position from which on the sum reaches `k`, going down a reversed list, and the sum
behind it. -/
def scanGE (k : ℤ) : List ℕ → ℤ → ℤ → ℤ × ℤ
  | [], i, sum => (i, sum)
  | v :: vs, i, sum => if k ≤ sum + v then (i, sum) else scanGE k vs (i - 1) (sum + v)

def SkipWalker.findNonLeafBw (walker : SkipWalker) (tree : List ℕ) (start : Start) :
    StreamOpResult × SkipWalker :=
  let start := start.clamp tree.length (tree.length - 1)
  if 0 ≤ start then
    let result := scanGE (walker.target - walker.sum) ((tree.take (start.toNat + 1)).reverse) start 0
    (⟨result.1, decide (result.1 < 0), false⟩, { walker with sum := walker.sum + result.2 })
  else (⟨start, true, true⟩, walker)

def SkipWalker.dispatchBw (walker : SkipWalker) (node : SizedNode I α) (start : Start) :
    StreamOpResult × SkipWalker :=
  if node.isLeaf then walker.findLeafBw (leafSize node) start
  else walker.findNonLeafBw (values node) start

def ctrFindBwDown (store : Store I ℕ (List α)) :
    ℕ → TreePath I α → SizedNode I α → SkipWalker → Option (Walked I α)
  | level, endPath, node, walker =>
    let (result, walker) := walker.dispatchBw node .max
    if node.isLeaf then some (⟨result.localPos, true⟩, endPath, walker)
    else
      match level with
      | 0 => none
      | level + 1 =>
        if !result.outOfRange then do
          let child ← ctrGetNodeChild store node result.localPos
          ctrFindBwDown store level endPath child walker
        else do
          let walker ← walker.fixTarget node (result.localPos + 1)
          let child ← ctrGetNodeChild store node (result.localPos + 1)
          ctrFindBwDown store level endPath child walker

def ctrFindBwUp [DecidableEq I] (store : Store I ℕ (List α)) :
    TreePath I α → ℕ → TreePath I α → SizedNode I α → ℤ → SkipWalker → Option (Walked I α)
  | above, level, endPath, node, start, walker =>
    let (result, walker) := walker.dispatchBw node (.pos start)
    if !result.outOfRange then
      if node.isLeaf then some (⟨result.localPos, true⟩, endPath, walker)
      else do
        let child ← ctrGetNodeChild store node result.localPos
        ctrFindBwDown store (level - 1) endPath child walker
    else do
      let (up, endPath, walker) ←
        (if node.isRoot then some (⟨start, false⟩, endPath, walker)
        else
          match above with
          | [] => none
          | parent :: above =>
            (ctrGetChildIdx parent node.id).bind fun parent_idx =>
              ctrFindBwUp store above (level + 1) endPath parent (parent_idx - 1) walker)
      if up.pass then some (up, endPath, walker)
      else if node.isLeaf then some (⟨result.localPos, true⟩, endPath, walker)
      else if !result.empty then do
        let walker ← walker.fixTarget node (result.localPos + 1)
        let child ← ctrGetNodeChild store node (result.localPos + 1)
        ctrFindBwDown store (level - 1) endPath child walker
      else some (⟨start, false⟩, endPath, walker)

section Iterators

variable [DecidableEq I] (store : Store I ℕ (List α))

def Iter.finish (it : Iter I α) (walked : Walked I α) : Iter I α :=
  ⟨if walked.2.1.head?.map Node.id ≠ it.path.head?.map Node.id then walked.2.1 else it.path,
    walked.1.idx⟩

def iterSkipFw (it : Iter I α) (amount : ℤ) : Option (Iter I α × ℤ) := do
  let leaf ← it.path.head?
  let walked ← ctrFindFwUp store it.path.tail 0 it.path leaf it.localPos ⟨0, amount⟩
  some (it.finish walked, walked.2.2.sum)

def iterSkipBw (it : Iter I α) (amount : ℤ) : Option (Iter I α × ℤ) := do
  let leaf ← it.path.head?
  let walked ← ctrFindBwUp store it.path.tail 0 it.path leaf it.localPos ⟨0, amount⟩
  some (it.finish walked, walked.2.2.sum)

def pathPrefix : TreePath I α → Option ℕ
  | [] => none
  | [_] => some 0
  | child :: parent :: above => do
    let idx ← ctrGetChildIdx parent child.id
    let before ← pathPrefix (parent :: above)
    some (before + ((values parent).take idx).sum)

def Iter.pos (it : Iter I α) : Option ℤ := do
  let before ← pathPrefix it.path
  some (it.localPos + before)

end Iterators

def Sized (store : Store I ℕ (List α)) : ℕ → SizedNode I α → ℕ → Prop
  | 0, node, size => ∃ data, node.body = .leaf data ∧ data.length = size
  | height + 1, node, size => ∃ entries, node.body = .branch entries ∧ entries ≠ [] ∧
      (entries.map Prod.fst).sum = size ∧ (entries.map Prod.snd).Nodup ∧
      ∀ e ∈ entries, ∃ child, store e.2 = some child ∧ child.id = e.2 ∧ child.isRoot = false ∧
        Sized store height child e.1

def leafIds (store : Store I ℕ (List α)) : ℕ → SizedNode I α → List I
  | 0, node => [node.id]
  | height + 1, node =>
    node.entries.flatMap fun e => ((store e.2).map (leafIds store height)).getD []

structure SizedTree (I α : Type) where
  store : Store I ℕ (List α)
  root : SizedNode I α
  height : ℕ
  size : ℕ
  isRoot : root.isRoot = true
  sized : Sized store height root size
  nodup : (leafIds store height root).Nodup

inductive SizedTree.At (t : SizedTree I α) : ℕ → SizedNode I α → TreePath I α → ℕ → ℕ → Prop
  | root : t.At t.height t.root [] 0 0
  | child {level : ℕ} {parent child : SizedNode I α} {above : TreePath I α} {before after : ℕ}
      {idx size : ℕ} : t.At (level + 1) parent above before after →
      parent.entries[idx]? = some (size, child.id) → t.store child.id = some child →
      t.At level child (parent :: above) (before + ((values parent).take idx).sum)
        (after + ((values parent).drop (idx + 1)).sum)

def FirstPath : TreePath I α → Prop
  | child :: parent :: above =>
    parent.entries.head?.map Prod.snd = some child.id ∧ FirstPath (parent :: above)
  | _ => True

/-- An iterator of a tree: its path leads to a leaf, `before` entries lie before this leaf, and its
local position is one of the leaf or its end, or the position before the first entry of all. -/
def SizedTree.Has (t : SizedTree I α) (it : Iter I α) (before : ℕ) : Prop :=
  ∃ leaf above after, it.path = leaf :: above ∧ t.At 0 leaf above before after ∧
    (0 ≤ it.localPos ∨ it.localPos = -1 ∧ FirstPath it.path) ∧ it.localPos ≤ leafSize leaf

/-- A move has taken an iterator to a position: path, leaf, local position and `pos` denote it, and
the distance is returned. -/
def SizedTree.Moved [DecidableEq I] (t : SizedTree I α) (moved : Option (Iter I α × ℤ))
    (pos distance : ℤ) : Prop :=
  ∃ it before, moved = some (it, distance) ∧ t.Has it before ∧ it.pos = some pos

end Memoria.BTree

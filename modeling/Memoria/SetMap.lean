import Mathlib.Logic.Function.Basic
import Memoria.Lib.KeyedTree
import Memoria.Lib.Run
import Memoria.OptBuffer

namespace Memoria.SetMap

open Lib Lib.Level

/-! Set and Map: entries in the order of their keys, in a tree whose branches keep the greatest key
of each child. A set is a map to `Unit`. -/

variable {Key Value : Type}

structure PackedMemory (Key Value : Type) where
  leaf : Bool → List (Key × Value) → Bool
  branch : Bool → List Key → Bool
  /-- A block has room for the entries of two children. -/
  branch_two : ∀ isRoot keys, keys.length ≤ 2 → branch isRoot keys = true

structure Tree (Key Value : Type) where
  height : Nat
  root : Level Key Value height

structure Iter where
  leaf : Nat
  pos : Nat
deriving DecidableEq, Repr

namespace Tree

def empty : Tree Key Value := ⟨0, leaf []⟩

def leaves (t : Tree Key Value) : List (List (Key × Value)) := Level.leaves t.height t.root

def entries (t : Tree Key Value) : List (Key × Value) := t.leaves.flatten

def entryAt (t : Tree Key Value) (it : Iter) : Option (Key × Value) :=
  t.leaves[it.leaf]?.bind fun leaf => leaf[it.pos]?

def offset (t : Tree Key Value) (it : Iter) : Nat := (t.leaves.take it.leaf).flatten.length + it.pos

end Tree

section Search

variable [LinearOrder Key]

def findMaxGE : (n : Nat) → Level Key Value n → Key → Option Iter
  | 0, node, key => some ⟨0, ValueArray.findGEForward (node.entries.map Prod.fst) key⟩
  | n + 1, node, key =>
    let pos := ValueArray.findGEForward (node.children.map Prod.fst) key
    -- a search that runs out of the node goes on in its last child
    let idx := if pos < node.children.length then pos else pos - 1
    match node.children[idx]? with
    | none => none
    | some c =>
      (findMaxGE n c.2 key).map fun it =>
        ⟨(leavesOf (node.children.take idx)).length + it.leaf, it.pos⟩

namespace Tree

def findMaxGE (t : Tree Key Value) (key : Key) : Option Iter := SetMap.findMaxGE t.height t.root key

def isFound (t : Tree Key Value) (it : Iter) (key : Key) : Bool :=
  (t.entryAt it).any fun entry => entry.1 = key

end Tree

end Search

section Blocks

variable [Inhabited Key] (mem : PackedMemory Key Value)

structure Parts (Key Value : Type) (n : Nat) where
  before : List (Level Key Value (n + 1))
  isRoot : Bool
  children : List (Key × Level Key Value n)
  idx : Nat
  after : List (Level Key Value (n + 1))

namespace Parts

variable {n : Nat}

def nodes (p : Parts Key Value n) : List (Level Key Value (n + 1)) :=
  p.before ++ branch p.children :: p.after

def splitInHalf (p : Parts Key Value n) : Parts Key Value n :=
  let splitIdx := p.children.length / 2
  if p.idx < splitIdx then
    { before := p.before
      isRoot := false
      children := p.children.take splitIdx
      idx := p.idx
      after := branch (p.children.drop splitIdx) :: p.after }
  else
    { before := p.before ++ [branch (p.children.take splitIdx)]
      isRoot := false
      children := p.children.drop splitIdx
      idx := p.idx - splitIdx
      after := p.after }

def update (c : Level Key Value n) (p : Parts Key Value n) : Parts Key Value n :=
  { p with children := p.children.set p.idx (maxKey n c, c) }

def insert (c : Level Key Value n) (p : Parts Key Value n) : Parts Key Value n :=
  { p with children := p.children.insertIdx (p.idx + 1) (maxKey n c, c), idx := p.idx + 1 }

def attempt (put : Parts Key Value n → Parts Key Value n) (p : Parts Key Value n) :
    Option (Parts Key Value n) :=
  if mem.branch (put p).isRoot ((put p).children.map Prod.fst) then some (put p)
  else
    let half := put p.splitInHalf
    if mem.branch half.isRoot (half.children.map Prod.fst) then some half else none

def insertAll (p : Parts Key Value n) (nodes : List (Level Key Value n)) :
    Option (Parts Key Value n) :=
  nodes.foldlM (fun p c => attempt mem (insert c) p) p

end Parts

variable {n : Nat}

/-- The entry of a child for the nodes that the child has become. `ctr_update_path` writes it for
the first of them, and `ctr_insert_to_branch_node` adds those of the others. -/
def replaceChild (isRoot : Bool) (children : List (Key × Level Key Value n)) (idx : Nat) :
    List (Level Key Value n) → Option (List (Level Key Value (n + 1)))
  | [] => none
  | c :: nodes => do
    let p ← Parts.attempt mem (Parts.update c) ⟨[], isRoot, children, idx, []⟩
    let p ← p.insertAll mem nodes
    return p.nodes

def editLeaf (edit : Bool → List (Key × Value) → Option (List (List (Key × Value)))) :
    (n : Nat) → Bool → Level Key Value n → Nat → Option (List (Level Key Value n))
  | 0, isRoot, node, _ => (edit isRoot node.entries).map (List.map leaf)
  | n + 1, isRoot, node, number => do
    let (idx, number) ← locate node.children number
    let c ← node.children[idx]?
    let nodes ← editLeaf edit n false c.2 number
    replaceChild mem isRoot node.children idx nodes

def growRoot : Nat → (n : Nat) → List (Level Key Value n) → Option (Tree Key Value)
  | _, n, [root] => some ⟨n, root⟩
  | fuel + 1, n, c :: nodes => do
    let p ← Parts.insertAll mem ⟨[], true, [(maxKey n c, c)], 0, []⟩ nodes
    growRoot fuel (n + 1) p.nodes
  | _, _, _ => none

def Tree.ofNodes {n : Nat} (nodes : List (Level Key Value n)) : Option (Tree Key Value) :=
  growRoot mem nodes.length n nodes

def Tree.edit (t : Tree Key Value) (number : Nat)
    (edit : Bool → List (Key × Value) → Option (List (List (Key × Value)))) :
    Option (Tree Key Value) := do
  let nodes ← editLeaf mem edit t.height true t.root number
  Tree.ofNodes mem nodes

/-- `ctr_insert_stream_entry` and `ctr_update_stream_entry`: a second attempt follows a split of the
leaf in the middle, with `iter_split_leaf` deciding which half holds the position. -/
def onLeaf (put : Nat → List (Key × Value) → Option (List (Key × Value))) (pos : Nat)
    (isRoot : Bool) (entries : List (Key × Value)) : Option (List (List (Key × Value))) := do
  let whole ← put pos entries
  if mem.leaf isRoot whole then return [whole]
  else
    let splitIdx := entries.length / 2
    if splitIdx < pos then
      let right ← put (pos - splitIdx) (entries.drop splitIdx)
      if mem.leaf false right then return [entries.take splitIdx, right] else none
    else
      let left ← put pos (entries.take splitIdx)
      if mem.leaf false left then return [left, entries.drop splitIdx] else none

def insertAt (entry : Key × Value) (pos : Nat) (entries : List (Key × Value)) :
    Option (List (Key × Value)) :=
  ValueArray.insertEntries entries pos [entry]

def assignAt (value : Value) (pos : Nat) (entries : List (Key × Value)) :
    Option (List (Key × Value)) := do
  let entry ← entries[pos]?
  ValueArray.setValues entries pos (entry.1, value)

def removeAt (pos : Nat) (entries : List (Key × Value)) : Option (List (Key × Value)) :=
  ValueArray.removeSpace entries pos (pos + 1)

def Tree.insertEntry (t : Tree Key Value) (it : Iter) (entry : Key × Value) :
    Option (Tree Key Value) :=
  t.edit mem it.leaf (onLeaf mem (insertAt entry) it.pos)

def Tree.updateEntry (t : Tree Key Value) (it : Iter) (value : Value) : Option (Tree Key Value) :=
  t.edit mem it.leaf (onLeaf mem (assignAt value) it.pos)

/-- Two neighbours of one parent, and then the nodes at the seam below them. The flag says whether
this went down to the leaves. -/
def mergeNodes : (n : Nat) → Level Key Value n → Level Key Value n →
    Option (Level Key Value n × Bool)
  | 0, a, b =>
    if mem.leaf false (a.entries ++ b.entries) then some (leaf (a.entries ++ b.entries), true)
    else none
  | n + 1, a, b =>
    if mem.branch false ((a.children ++ b.children).map Prod.fst) then
      match a.children.getLast?, b.children.head? with
      | some x, some y =>
        match mergeNodes n x.2 y.2 with
        | some (m, merged) =>
          some (branch (a.children.dropLast ++ (maxKey n m, m) :: b.children.tail), merged)
        | none => some (branch (a.children ++ b.children), false)
      | _, _ => some (branch (a.children ++ b.children), false)
    else none

/-- `ctr_merge_leaf_nodes` of the leaf with the given number and the next one. `some none` is a tree
left as it was. -/
def mergeLeaves : (n : Nat) → Bool → Level Key Value n → Nat →
    Option (Option (List (Level Key Value n) × Bool))
  | 0, _, _, _ => some none
  | n + 1, isRoot, node, number => do
    let (idx, number) ← locate node.children number
    let c ← node.children[idx]?
    if number + 1 < leafCount c.2 then
      match ← mergeLeaves n false c.2 number with
      | none => return none
      | some (nodes, merged) =>
        let nodes ← replaceChild mem isRoot node.children idx nodes
        return some (nodes, merged)
    else
      match node.children[idx + 1]? with
      | none => return none
      | some d =>
        match mergeNodes mem n c.2 d.2 with
        | none => return none
        | some (m, merged) =>
          let nodes ← replaceChild mem isRoot (node.children.eraseIdx (idx + 1)) idx [m]
          return some (nodes, merged)

def canConvertToRoot : (n : Nat) → Level Key Value n → Bool
  | 0, node => mem.leaf true node.entries
  | _ + 1, node => mem.branch true (node.children.map Prod.fst)

def removeRedundantRoot : (n : Nat) → Level Key Value n → Tree Key Value
  | 0, node => ⟨0, node⟩
  | n + 1, node =>
    match node.children with
    | [c] => if canConvertToRoot mem n c.2 then removeRedundantRoot n c.2 else ⟨n + 1, node⟩
    | _ => ⟨n + 1, node⟩

def Tree.mergeLeafNodes (t : Tree Key Value) (number : Nat) : Option (Tree Key Value) := do
  match ← mergeLeaves mem t.height true t.root number with
  | none => return t
  | some (nodes, merged) =>
    let t ← Tree.ofNodes mem nodes
    if merged then return removeRedundantRoot mem t.height t.root else return t

/-- Taking an entry out of a leaf frees memory, so the split for want of it does not happen. The
leaf is then merged with the next one, and the last leaf with the one before it. -/
def Tree.removeEntry (t : Tree Key Value) (it : Iter) : Option (Tree Key Value) := do
  let t ← t.edit mem it.leaf fun _ entries => (removeAt it.pos entries).map fun leaf => [leaf]
  if it.leaf + 1 < t.leaves.length then t.mergeLeafNodes mem it.leaf
  else if 0 < it.leaf then t.mergeLeafNodes mem (it.leaf - 1)
  else return t

end Blocks

inductive Op (Key Value : Type) where
  /-- `insert`, `remove` and `contains` of a set. -/
  | insert (key : Key) (value : Value)
  | remove (key : Key)
  | contains (key : Key)
  /-- `find` of both. -/
  | find (key : Key)
  /-- The operations of a map. -/
  | assignKey (key : Key) (value : Value)
  | removeKey (key : Key)
  | replaceAndReturn (key : Key) (value : Value)
  | removeAndReturn (key : Key)
  | withValue (key : Key) (fn : Option Value → Option Value)

inductive Reply (Value : Type) where
  | done
  | flag (found : Bool)
  | value (previous : Option Value)
  | iter (it : Iter)
deriving DecidableEq

variable [LinearOrder Key] [Inhabited Key] (mem : PackedMemory Key Value)

def call (t : Tree Key Value) : Op Key Value → Option (Tree Key Value × Reply Value)
  | .insert key value => do
    let it ← t.findMaxGE key
    if t.isFound it key then return (t, .flag true)
    else
      let t ← t.insertEntry mem it (key, value)
      return (t, .flag false)
  | .remove key => do
    let it ← t.findMaxGE key
    if t.isFound it key then
      let t ← t.removeEntry mem it
      return (t, .flag true)
    else return (t, .flag false)
  | .contains key => do
    let it ← t.findMaxGE key
    return (t, .flag (t.isFound it key))
  | .find key => do
    let it ← t.findMaxGE key
    return (t, .iter it)
  | .assignKey key value => do
    let it ← t.findMaxGE key
    if t.isFound it key then
      let t ← t.updateEntry mem it value
      return (t, .done)
    else
      let t ← t.insertEntry mem it (key, value)
      return (t, .done)
  | .removeKey key => do
    let it ← t.findMaxGE key
    if t.isFound it key then
      let t ← t.removeEntry mem it
      return (t, .done)
    else return (t, .done)
  | .replaceAndReturn key value => do
    let it ← t.findMaxGE key
    if t.isFound it key then
      let previous := (t.entryAt it).map Prod.snd
      let t ← t.updateEntry mem it value
      return (t, .value previous)
    else
      let t ← t.insertEntry mem it (key, value)
      return (t, .value none)
  | .removeAndReturn key => do
    let it ← t.findMaxGE key
    if t.isFound it key then
      let previous := (t.entryAt it).map Prod.snd
      let t ← t.removeEntry mem it
      return (t, .value previous)
    else return (t, .value none)
  | .withValue key fn => do
    let it ← t.findMaxGE key
    if t.isFound it key then
      match fn ((t.entryAt it).map Prod.snd) with
      | some value =>
        let t ← t.updateEntry mem it value
        return (t, .done)
      | none =>
        let t ← t.removeEntry mem it
        return (t, .done)
    else
      match fn none with
      | some value =>
        let t ← t.insertEntry mem it (key, value)
        return (t, .done)
      | none => return (t, .done)

structure Session (Key Value : Type) where
  tree : Tree Key Value
  map : Key → Option Value

def effect (map : Key → Option Value) : Op Key Value → Key → Option Value
  | .insert key value => if (map key).isSome then map else Function.update map key (some value)
  | .remove key => Function.update map key none
  | .contains _ => map
  | .find _ => map
  | .assignKey key value => Function.update map key (some value)
  | .removeKey key => Function.update map key none
  | .replaceAndReturn key value => Function.update map key (some value)
  | .removeAndReturn key => Function.update map key none
  | .withValue key fn => Function.update map key (fn (map key))

def step (s : Session Key Value) (op : Op Key Value) : Option (Session Key Value) :=
  (call mem s.tree op).map fun result => ⟨result.1, effect s.map op⟩

def Tree.Lands (t : Tree Key Value) (key : Key) (it : Iter) : Prop :=
  t.offset it ≤ t.entries.length
    ∧ (∀ entry ∈ t.entries.take (t.offset it), entry.1 < key)
    ∧ (∀ entry ∈ t.entries.drop (t.offset it), key ≤ entry.1)
    ∧ t.entryAt it = (t.entries.drop (t.offset it)).head?

def Session.Refines (s : Session Key Value) : Prop :=
  Sorted s.tree.entries ∧ toMap s.tree.entries = s.map
    ∧ ∀ key, ∃ it, s.tree.findMaxGE key = some it ∧ s.tree.Lands key it

def Reply.Right (s : Session Key Value) (reply : Reply Value) : Op Key Value → Prop
  | .insert key _ => reply = .flag (s.map key).isSome
  | .remove key => reply = .flag (s.map key).isSome
  | .contains key => reply = .flag (s.map key).isSome
  | .find key => ∃ it, reply = .iter it ∧ s.tree.Lands key it
  | .assignKey _ _ => reply = .done
  | .removeKey _ => reply = .done
  | .replaceAndReturn key _ => reply = .value (s.map key)
  | .removeAndReturn key => reply = .value (s.map key)
  | .withValue _ _ => reply = .done

def Answered (s : Session Key Value) (op : Op Key Value) : Prop :=
  ∀ t reply, call mem s.tree op = some (t, reply) → reply.Right s op

def cleared : (n : Nat) → Bool → Level Key Value n → Nat → Option (Level Key Value n)
  | 0, _, _, _ => some (leaf [])
  | n + 1, isRoot, node, number => do
    let (idx, number) ← locate node.children number
    let c ← node.children[idx]?
    let d ← cleared n false c.2 number
    let children := node.children.set idx (maxKey n d, d)
    if mem.branch isRoot (children.map Prod.fst) then return branch children else none

def seamFits : (n : Nat) → Level Key Value n → Level Key Value n → Bool
  | 0, a, b => mem.leaf false (a.entries ++ b.entries)
  | n + 1, a, b =>
    mem.branch false ((a.children ++ b.children).map Prod.fst) &&
      match a.children.getLast?, b.children.head? with
      | some x, some y => seamFits n x.2 y.2
      | _, _ => false

def seamAt : (n : Nat) → Level Key Value n → Nat → Bool
  | 0, _, _ => false
  | n + 1, node, number =>
    match locate node.children number with
    | none => false
    | some (idx, number) =>
      match node.children[idx]? with
      | none => false
      | some c =>
        if number + 1 < leafCount c.2 then seamAt n c.2 number
        else
          match node.children[idx + 1]? with
          | none => false
          | some d => seamFits mem n c.2 d.2

/-- Once the leaf is empty, it can be merged with the next one, or the last leaf with the one before
it. -/
def Tree.mergesAway (t : Tree Key Value) (number : Nat) : Bool :=
  match cleared mem t.height true t.root number with
  | none => false
  | some root =>
    seamAt mem t.height root (if number + 1 < t.leaves.length then number else number - 1)

def Tree.Removable (t : Tree Key Value) (it : Iter) : Prop :=
  t.leaves.length = 1 ∨ (∀ leaf, t.leaves[it.leaf]? = some leaf → 1 < leaf.length)
    ∨ t.mergesAway mem it.leaf = true

/-- The insertion does not split a root leaf with at most one entry in front of the new one, which
would leave one of the halves empty. -/
def Tree.Insertable (t : Tree Key Value) (it : Iter) (entry : Key × Value) : Prop :=
  t.height = 0 → t.entries.length ≤ 1 → it.pos = t.entries.length →
    mem.leaf true (t.entries ++ [entry]) = true

inductive Action (Value : Type) where
  | none
  | insert (value : Value)
  | assign (value : Value)
  | remove

def Op.key : Op Key Value → Key
  | .insert key _ | .remove key | .contains key | .find key | .assignKey key _ | .removeKey key
  | .replaceAndReturn key _ | .removeAndReturn key | .withValue key _ => key

def Op.action (previous : Option Value) : Op Key Value → Action Value
  | .insert _ value => if previous.isSome then .none else .insert value
  | .remove _ | .removeKey _ | .removeAndReturn _ => if previous.isSome then .remove else .none
  | .contains _ | .find _ => .none
  | .assignKey _ value | .replaceAndReturn _ value =>
    if previous.isSome then .assign value else .insert value
  | .withValue _ fn =>
    match fn previous with
    | some value => if previous.isSome then .assign value else .insert value
    | none => if previous.isSome then .remove else .none

def StepOk (s : Session Key Value) (op : Op Key Value) : Prop :=
  ∀ it, s.tree.findMaxGE op.key = some it →
    match op.action (s.map op.key) with
    | .insert value => s.tree.Insertable mem it (op.key, value)
    | .remove => s.tree.Removable mem it
    | _ => True

end Memoria.SetMap

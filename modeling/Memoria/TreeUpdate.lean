import Mathlib.Data.Nat.Notation
import Mathlib.Logic.Function.Basic
import Memoria.Lib.Programs

/-!
# Splits and updates along a path

`bt_c_branch_variable.hpp`, where an entry of a branch may grow: an update of a branch or an
insertion into it may find no room and split the branch, which inserts into its parent. A path has
the nodes from a leaf to the root. Blocks are changed in place (`NoCoWOps`); reference counters and
the metadata of roots are left out.
-/

namespace Memoria.TreeUpdate

open Lib

inductive Failure where
  | packed
  | generic
  deriving DecidableEq

variable {E D : Type}

inductive Body (E D : Type) where
  | leaf (data : List D)
  | branch (entries : List (E × ℕ))

def Body.cleared : Body E D → Body E D
  | .leaf _ => .leaf []
  | .branch _ => .branch []

structure Block (E D : Type) where
  level : ℕ
  isRoot : Bool
  body : Body E D

namespace Block

def entries (block : Block E D) : List (E × ℕ) :=
  match block.body with
  | .leaf _ => []
  | .branch entries => entries

def children (block : Block E D) : List ℕ := block.entries.map Prod.snd

def withEntries (block : Block E D) (entries : List (E × ℕ)) : Block E D :=
  { block with body := .branch entries }

def findChildIdx (block : Block E D) (id : ℕ) : Option ℕ :=
  block.entries.findIdx? fun e => e.2 == id

end Block

structure TreePath where
  nodes : ℕ → ℕ
  size : ℕ

def TreePath.set (path : TreePath) (level node : ℕ) : TreePath :=
  { path with nodes := Function.update path.nodes level node }

def TreePath.addRoot (path : TreePath) (node : ℕ) : TreePath :=
  ⟨Function.update path.nodes path.size node, path.size + 1⟩

structure TreeState (E D : Type) where
  store : ℕ → Option (Block E D)
  next : ℕ
  path : TreePath

def TreeState.put (s : TreeState E D) (id : ℕ) (block : Block E D) : TreeState E D :=
  { s with store := Function.update s.store id (some block) }

structure Layout (E D : Type) where
  maxKeys : Body E D → E
  roomToInsert : Block E D → ℕ → E → Bool
  roomToUpdate : Block E D → ℕ → E → Bool
  insert_first : ∀ block entry, block.entries = [] → roomToInsert block 0 entry = true

structure SplitFn (E D : Type) where
  split : Body E D → Except Failure (Body E D × Body E D)
  in_order : ∀ body left right, split body = .ok (left, right) →
    (∃ xs ys, body = .leaf (xs ++ ys) ∧ left = .leaf xs ∧ right = .leaf ys) ∨
      ∃ xs ys, body = .branch (xs ++ ys) ∧ left = .branch xs ∧ right = .branch ys

abbrev Op (E D α : Type) : Type := Prog (TreeState E D) Failure α

def getBlock (id : ℕ) : Op E D (Block E D) := Prog.of fun s =>
  match s.store id with
  | some block => some (.ok block, s)
  | none => some (.error .generic, s)

def putBlock (id : ℕ) (block : Block E D) : Op E D Unit :=
  modify fun s => s.put id block

/-- `path[level]`, which terminates the program beyond the size. -/
def pathNode (path : TreePath) (level : ℕ) : Op E D ℕ :=
  if level < path.size then pure (path.nodes level) else Prog.hang

def nodeAt (level : ℕ) : Op E D ℕ := do
  let s ← get
  pathNode s.path level

def setPath (path : TreePath) : Op E D Unit := modify fun s => { s with path := path }

def createNode (level : ℕ) (isRoot : Bool) (body : Body E D) : Op E D ℕ := do
  let s ← get
  putBlock s.next ⟨level, isRoot, body⟩
  modify fun s => { s with next := s.next + 1 }
  pure s.next

def getChildIdx (block : Block E D) (id : ℕ) : Op E D ℕ :=
  match block.findChildIdx id with
  | some idx => pure idx
  | none => throw .generic

def checkLevels (path : TreePath) : ℕ → ℕ → Op E D Unit
  | 0, _ => pure ()
  | count + 1, level => do
      let child ← pathNode path (level - 1)
      let node ← pathNode path level
      let block ← getBlock node
      let _ ← getChildIdx block child
      checkLevels path count (level + 1)

def checkPath (level : ℕ) : Op E D Unit := do
  let s ← get
  checkLevels s.path (s.path.size - (level + 1)) (level + 1)

def goToChild (path : TreePath) (level : ℕ) (parent : Block E D) (idx : ℕ) :
    Op E D (Bool × TreePath) :=
  match parent.entries[idx]? with
  | some e => pure (true, path.set level e.2)
  | none => throw .generic

def enterParent (forward : Bool) (level : ℕ) (found : Bool) (path : TreePath) :
    Op E D (Bool × TreePath) :=
  if found then do
    let parentNode ← pathNode path (level + 1)
    let parent ← getBlock parentNode
    goToChild path level parent (if forward then 0 else parent.entries.length - 1)
  else pure (false, path)

/-- `ctr_get_next_node` and `ctr_get_prev_node`: the node before or behind the one at a level, with
the path to it, if there is one. The levels above it are the first argument. -/
def adjacentNode (forward : Bool) : ℕ → TreePath → ℕ → Op E D (Bool × TreePath)
  | levels, path, level => do
      let node ← pathNode path level
      let block ← getBlock node
      if block.isRoot then pure (false, path)
      else
        match levels with
        | 0 => throw .generic
        | levels + 1 => do
            let parentNode ← pathNode path (level + 1)
            let parent ← getBlock parentNode
            let parentIdx ← getChildIdx parent node
            if (if forward then parentIdx + 1 < parent.entries.length else 0 < parentIdx) then
              goToChild path level parent (if forward then parentIdx + 1 else parentIdx - 1)
            else do
              let (found, path) ← adjacentNode forward levels path (level + 1)
              enterParent forward level found path

def expectAdjacentNode (forward : Bool) (path : TreePath) (level : ℕ) : Op E D TreePath := do
  let (found, path) ← adjacentNode forward (path.size - (level + 1)) path level
  if found then pure path else throw .generic

def expectNextNode (level : ℕ) : Op E D Unit := do
  let s ← get
  let path ← expectAdjacentNode true s.path level
  setPath path

def expectPrevNode (level : ℕ) : Op E D Unit := do
  let s ← get
  let path ← expectAdjacentNode false s.path level
  setPath path

def TreePath.assign (dst src : TreePath) (start : ℕ) : TreePath :=
  ⟨fun level => if start ≤ level then src.nodes level else dst.nodes level, src.size⟩

def splitBranch (splitAt : ℕ) : Body E D → Except Failure (Body E D × Body E D)
  | .leaf _ => .error .generic
  | .branch entries => .ok (.branch (entries.take splitAt), .branch (entries.drop splitAt))

theorem splitBranch_in_order (splitAt : ℕ) (body left right : Body E D)
    (hsplit : splitBranch splitAt body = .ok (left, right)) :
    (∃ xs ys, body = .leaf (xs ++ ys) ∧ left = .leaf xs ∧ right = .leaf ys) ∨
      ∃ xs ys, body = .branch (xs ++ ys) ∧ left = .branch xs ∧ right = .branch ys := by
  cases body with
  | leaf data => cases hsplit
  | branch entries =>
      obtain ⟨rfl, rfl⟩ := Prod.mk.inj (Except.ok.inj hsplit)
      exact .inr ⟨_, _, congrArg _ (List.take_append_drop splitAt entries).symm, rfl, rfl⟩

def splitBranchNode (splitAt : ℕ) : SplitFn E D := ⟨splitBranch splitAt, splitBranch_in_order splitAt⟩

def splitLeaf (splitAt : ℕ) : Body E D → Except Failure (Body E D × Body E D)
  | .leaf data => .ok (.leaf (data.take splitAt), .leaf (data.drop splitAt))
  | .branch _ => .error .generic

theorem splitLeaf_in_order (splitAt : ℕ) (body left right : Body E D)
    (hsplit : splitLeaf splitAt body = .ok (left, right)) :
    (∃ xs ys, body = .leaf (xs ++ ys) ∧ left = .leaf xs ∧ right = .leaf ys) ∨
      ∃ xs ys, body = .branch (xs ++ ys) ∧ left = .branch xs ∧ right = .branch ys := by
  cases body with
  | leaf data =>
      obtain ⟨rfl, rfl⟩ := Prod.mk.inj (Except.ok.inj hsplit)
      exact .inl ⟨_, _, congrArg _ (List.take_append_drop splitAt data).symm, rfl, rfl⟩
  | branch entries => cases hsplit

def splitLeafNode (splitAt : ℕ) : SplitFn E D := ⟨splitLeaf splitAt, splitLeaf_in_order splitAt⟩

section Updates

variable (layout : Layout E D)

def updateBranchNode (node idx : ℕ) (entry : E) : Op E D Bool := do
  let block ← getBlock node
  if layout.roomToUpdate block idx entry then do
    putBlock node (block.withEntries (block.entries.modify idx fun e => (entry, e.2)))
    pure true
  else pure false

structure Self (E D : Type) where
  insertToBranchNode : ℕ → ℕ → E → ℕ → Op E D Unit
  createNewRootBlock : Op E D Unit
  splitNodeRaw : ℕ → SplitFn E D → Op E D Unit
  updateBranchNodes : ℕ → ℕ → E → Op E D (Bool × ℕ)
  updatePath : ℕ → Op E D Unit

variable (self : Self E D)

def insertToBranchNode (level idx : ℕ) (sums : E) (id : ℕ) : Op E D Unit := do
  let node ← nodeAt level
  let block ← getBlock node
  if layout.roomToInsert block idx sums then do
    putBlock node (block.withEntries (block.entries.insertIdx idx (sums, id)))
    if block.isRoot then pure () else self.updatePath level
  else throw .packed

def createNewRootBlock : Op E D Unit := do
  let s ← get
  let root ← pathNode s.path (s.path.size - 1)
  let block ← getBlock root
  let newRoot ← createNode (block.level + 1) true (.branch [])
  putBlock root { block with isRoot := false }
  setPath (s.path.addRoot newRoot)
  self.insertToBranchNode (block.level + 1) 0 (layout.maxKeys block.body) root

def ensureParent (level : ℕ) : Op E D Unit := do
  let s ← get
  if level + 1 = s.path.size then self.createNewRootBlock else pure ()

/-- The parent was split and the path is at its right half: the half with the entry `idx`, and the
index there. -/
def chooseParent (level idx splitIdx : ℕ) : Op E D ℕ :=
  if idx < splitIdx then do
    let s ← get
    let leftPath ← expectAdjacentNode false s.path (level + 1)
    setPath (s.path.assign leftPath (level + 1))
    pure idx
  else pure (idx - splitIdx)

def insertOr (level idx : ℕ) (sums : E) (id : ℕ) (retry : Op E D Unit) : Op E D Unit := do
  let node ← nodeAt level
  let block ← getBlock node
  let status ← Prog.attempt (self.insertToBranchNode level idx sums id)
  match status with
  | .ok () => pure ()
  | .error .generic => throw .generic
  | .error .packed => do
      putBlock node block
      retry

def insertIntoHalf (level idx : ℕ) (rightMax : E) (right : ℕ) : Op E D Unit := do
  let parentNode ← nodeAt (level + 1)
  let parent ← getBlock parentNode
  let parentSplitIdx := parent.entries.length / 2
  self.splitNodeRaw (level + 1) (splitBranchNode parentSplitIdx)
  let newParentIdx ← chooseParent level idx parentSplitIdx
  insertOr self (level + 1) (newParentIdx + 1) rightMax right (throw .generic)

def insertRightNode (level idx : ℕ) (rightMax : E) (right : ℕ) : Op E D Unit :=
  insertOr self (level + 1) (idx + 1) rightMax right (insertIntoHalf self level idx rightMax right)

def splitInto (level left : ℕ) (splitFn : SplitFn E D) : Op E D (ℕ × E) := do
  let block ← getBlock left
  let right ← createNode level false block.body.cleared
  match splitFn.split block.body with
  | .error failure => throw failure
  | .ok (leftBody, rightBody) => do
      putBlock left { block with body := leftBody }
      putBlock right ⟨level, false, rightBody⟩
      pure (right, layout.maxKeys rightBody)

def splitNodeRaw (level : ℕ) (splitFn : SplitFn E D) : Op E D Unit := do
  ensureParent self level
  let left ← nodeAt level
  let (right, rightMax) ← splitInto layout level left splitFn
  self.updatePath level
  let parentNode ← nodeAt (level + 1)
  let parent ← getBlock parentNode
  let child ← nodeAt level
  let newParentIdx ← getChildIdx parent child
  insertRightNode self level newParentIdx rightMax right
  let s ← get
  setPath (s.path.set level right)

def chooseNode (level idx splitIdx : ℕ) : Op E D (Bool × ℕ) :=
  if idx < splitIdx then do
    expectPrevNode level
    pure (false, idx)
  else pure (true, idx - splitIdx)

def updateInHalf (level idx : ℕ) (entry : E) : Op E D (Bool × ℕ) := do
  let node ← nodeAt level
  let block ← getBlock node
  let splitIdx := block.entries.length / 2
  self.splitNodeRaw level (splitBranchNode splitIdx)
  let chosen ← chooseNode level idx splitIdx
  let node ← nodeAt level
  let success ← updateBranchNode layout node chosen.2 entry
  if success then pure chosen else throw .generic

def updateEntry (level idx : ℕ) (entry : E) : Op E D (Bool × ℕ) := do
  let node ← nodeAt level
  let success ← updateBranchNode layout node idx entry
  if success then pure (false, idx) else updateInHalf layout self level idx entry

def updateBranchNodes (level idx : ℕ) (entry : E) : Op E D (Bool × ℕ) := do
  let result ← updateEntry layout self level idx entry
  self.updatePath level
  pure result

def findParent (level : ℕ) (usingNextNode : Bool) : Op E D Unit := do
  let child ← nodeAt level
  let parentNode ← nodeAt (level + 1)
  let parent ← getBlock parentNode
  match parent.findChildIdx child with
  | some _ => pure ()
  | none => do
      if usingNextNode then expectPrevNode (level + 1) else expectNextNode (level + 1)
      let parentNode ← nodeAt (level + 1)
      let parent ← getBlock parentNode
      let _ ← getChildIdx parent child
      pure ()

def updatePathWith (level : ℕ) (entry : E) : Op E D Unit := do
  checkPath level
  let child ← nodeAt level
  let parentNode ← nodeAt (level + 1)
  let parent ← getBlock parentNode
  let parentIdx ← getChildIdx parent child
  let updated ← self.updateBranchNodes (level + 1) parentIdx entry
  findParent level updated.1

def updatePath (level : ℕ) : Op E D Unit := do
  let node ← nodeAt level
  let block ← getBlock node
  if block.isRoot then pure () else updatePathWith self level (layout.maxKeys block.body)

def functions : ℕ → Self E D
  | 0 => ⟨fun _ _ _ _ => Prog.hang, Prog.hang, fun _ _ => Prog.hang, fun _ _ _ => Prog.hang,
      fun _ => Prog.hang⟩
  | fuel + 1 =>
      ⟨insertToBranchNode layout (functions fuel), createNewRootBlock layout (functions fuel),
        splitNodeRaw layout (functions fuel), updateBranchNodes layout (functions fuel),
        updatePath layout (functions fuel)⟩

end Updates

def Orphan (s : TreeState E D) (id : ℕ) : Prop :=
  ∀ node block, s.store node = some block → id ∉ block.children

structure Sound (s : TreeState E D) : Prop where
  fresh : ∀ id block, s.store id = some block → id < s.next
  child : ∀ id block, s.store id = some block → ∀ c ∈ block.children, ∃ child,
    s.store c = some child ∧ child.level + 1 = block.level ∧ child.isRoot = false
  nodup : ∀ id block, s.store id = some block → block.children.Nodup
  single : ∀ id block id' block' c, s.store id = some block → s.store id' = some block' →
    c ∈ block.children → c ∈ block'.children → id = id'

structure Spine (s : TreeState E D) (level : ℕ) : Prop where
  lt_size : level < s.path.size
  node : ∀ k, level ≤ k → k < s.path.size → ∃ block, s.store (s.path.nodes k) = some block ∧
    block.level = k ∧ (block.isRoot = true ↔ k + 1 = s.path.size)
  link : ∀ k, level ≤ k → k + 1 < s.path.size → ∃ block,
    s.store (s.path.nodes (k + 1)) = some block ∧ s.path.nodes k ∈ block.children

def Exact (layout : Layout E D) (s : TreeState E D) (level : ℕ) (except : ℕ → Prop) : Prop :=
  ∀ id block, s.store id = some block → level ≤ block.level → ∀ e ∈ block.entries, ¬ except e.2 →
    ∀ child, s.store e.2 = some child → e.1 = layout.maxKeys child.body

namespace TreeState

variable (s : TreeState E D)

def childrenOf (id : ℕ) : List ℕ :=
  match s.store id with
  | some block => block.children
  | none => []

def rowBelow (root : ℕ) : ℕ → List ℕ
  | 0 => [root]
  | depth + 1 => (rowBelow root depth).flatMap s.childrenOf

def row (level : ℕ) : List ℕ :=
  s.rowBelow (s.path.nodes (s.path.size - 1)) (s.path.size - 1 - level)

def leafData (id : ℕ) : Option (List D) :=
  match s.store id with
  | some ⟨_, _, .leaf data⟩ => some data
  | _ => none

end TreeState

inductive Call (E D : Type) where
  | change (data : List D)
  | split (splitFn : SplitFn E D)
  | move (forward : Bool)

def changeLeaf (self : Self E D) (data : List D) : Op E D Unit := do
  let node ← nodeAt 0
  let block ← getBlock node
  putBlock node { block with body := .leaf data }
  self.updatePath 0

def moveNode (forward : Bool) (level : ℕ) : Op E D Unit := do
  let s ← get
  let moved ← adjacentNode forward (s.path.size - (level + 1)) s.path level
  setPath moved.2

def Call.run (layout : Layout E D) (fuel : ℕ) : Call E D → Op E D Unit
  | .change data => changeLeaf (functions layout fuel) data
  | .split splitFn => (functions layout fuel).splitNodeRaw 0 splitFn
  | .move forward => moveNode forward 0

structure Leaves (D : Type) where
  before : List (List D)
  here : List D
  behind : List (List D)

def Leaves.move (forward : Bool) (leaves : Leaves D) : Leaves D :=
  match forward, leaves with
  | true, ⟨before, here, next :: behind⟩ => ⟨here :: before, next, behind⟩
  | false, ⟨prev :: before, here, behind⟩ => ⟨before, prev, here :: behind⟩
  | _, leaves => leaves

def Leaves.split (splitFn : SplitFn E D) (leaves : Leaves D) : Leaves D :=
  match splitFn.split (.leaf leaves.here) with
  | .ok (.leaf left, .leaf right) => ⟨left :: leaves.before, right, leaves.behind⟩
  | _ => leaves

def Call.onLeaves : Call E D → Leaves D → Leaves D
  | .change data, leaves => { leaves with here := data }
  | .split splitFn, leaves => leaves.split splitFn
  | .move forward, leaves => leaves.move forward

structure Session (E D : Type) where
  state : TreeState E D
  leaves : Leaves D

def step (layout : Layout E D) (fuel : ℕ) (session : Session E D) (call : Call E D) :
    Option (Session E D) :=
  match (call.run layout fuel).outcome session.state with
  | some (.ok (), state) => some ⟨state, call.onLeaves session.leaves⟩
  | _ => none

def start (data : List D) : Session E D :=
  ⟨⟨Function.update (fun _ => none) 0 (some ⟨0, true, .leaf data⟩), 1, ⟨fun _ => 0, 1⟩⟩,
    ⟨[], data, []⟩⟩

def Leaves.On (data : ℕ → Option (List D)) (row : List ℕ) (node : ℕ) (leaves : Leaves D) : Prop :=
  ∃ before behind : List ℕ, row = before.reverse ++ node :: behind ∧
    before.map data = leaves.before.map some ∧ data node = some leaves.here ∧
    behind.map data = leaves.behind.map some

structure Session.Shows (layout : Layout E D) (session : Session E D) : Prop where
  sound : Sound session.state
  spine : Spine session.state 0
  entries : Exact layout session.state 1 fun _ => False
  leaves : session.leaves.On session.state.leafData (session.state.row 0)
    (session.state.path.nodes 0)

end Memoria.TreeUpdate

import Memoria.BTree

/-!
# The check of a container

`ctr_check_tree` of the B-tree containers. The checks of the packed structures and the entry that a
node should have in its parent depend on the container. The flag `errors` is passed along and comes
back as the result. The recursion is bounded by a number of levels. Messages are left out.
-/

namespace Memoria.BTree

variable {I E L : Type}

structure Packed (I E L : Type) where
  check : Body I E L → Bool
  max : Body I E L → E

section Check

variable [DecidableEq I] [DecidableEq E] (packed : Packed I E L)

def ctrCheckContent (node : Node I E L) : Bool := !packed.check node.body

def ctrCheckTypedNodeContent (parent node : Node I E L) (parentIdx : Nat) : Option Bool := do
  let sums := packed.max node.body
  let keys ← parent.keysAt parentIdx
  some (decide (sums ≠ keys))

def ctrCheckNonRoot (parent : Option (Node I E L)) (parentIdx : Nat) (node : Node I E L)
    (errors : Bool) : Option Bool := do
  let parent ← parent
  let res ← ctrCheckTypedNodeContent packed parent node parentIdx
  let errors := res || errors
  match node.body with
  | .leaf _ => some errors
  | .branch entries => some (if entries.length = 0 then true else errors)

def ctrCheckTreeStructure (store : Store I E L) :
    Nat → Option (Node I E L) → Nat → Node I E L → Bool → Option Bool
  | 0, _, _, _, _ => none
  | fuel + 1, parent, parentIdx, node, errors => do
      let errors := ctrCheckContent packed node || errors
      let errors ← (if node.isRoot then some errors
        else ctrCheckNonRoot packed parent parentIdx node errors)
      match node.body with
      | .leaf _ => some errors
      | .branch [] => some errors
      -- the body of the loop over the children ends in a return
      | .branch ((_, childId) :: _) => do
          let child ← store childId
          let errors := decide (child.id ≠ childId) || errors
          ctrCheckTreeStructure store fuel (some node) 0 child errors

/-- `none` is the null id, for which `getBlock` gives no block and no error. -/
def ctrCheckTree (store : Store I E L) (fuel : Nat) : Option I → Option Bool
  | none => some true
  | some rootId => do
      let root ← store rootId
      ctrCheckTreeStructure packed store fuel none 0 root false

end Check

section Faults

variable (packed : Packed I E L) (store : Store I E L)

def NodeFault (node : Node I E L) : Prop :=
  packed.check node.body = false
    ∨ (node.isRoot = false ∧ node.isLeaf = false ∧ node.entries = [])

def EntryFault (node : Node I E L) (idx : Nat) : Prop :=
  ∃ e child, node.entries[idx]? = some e ∧ store e.2 = some child
    ∧ (child.id ≠ e.2 ∨ e.1 ≠ packed.max child.body)

namespace Tree

variable (t : Tree I E L)

def Damaged : Prop :=
  ∃ node, t.Has node ∧ (NodeFault packed node ∨ ∃ idx, EntryFault packed t.store node idx)

/-- The nodes that are reached through first children only. -/
def OnSpine (node : Node I E L) : Prop :=
  Relation.ReflTransGen (fun node child => ChildAt t.store node 0 child) t.root node

def SpineFault : Prop :=
  ∃ node, t.OnSpine node ∧ (NodeFault packed node ∨ EntryFault packed t.store node 0)

/-- A fault of an entry that is not the first of its node, or of anything below such an entry. -/
def HiddenFault : Prop :=
  ∃ node idx, t.Has node ∧ 0 < idx
    ∧ (EntryFault packed t.store node idx
      ∨ ∃ child below, ChildAt t.store node idx child
        ∧ Relation.ReflTransGen (Child t.store) child below
        ∧ (NodeFault packed below ∨ ∃ i, EntryFault packed t.store below i))

end Tree

end Faults

end Memoria.BTree

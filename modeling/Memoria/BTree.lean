import Mathlib.Algebra.Ring.Nat
import Mathlib.Data.List.Basic
import Mathlib.Logic.Relation
import Mathlib.Order.Lattice

/-!
# B-trees of containers

The blocks of a container: leaves with the data of the container, and branches with an entry and an
id for each child. What the data are is up to the container. `none` stands for an error.
-/

namespace Memoria.BTree

variable {I E L : Type}

inductive Body (I E L : Type) where
  | leaf (data : L)
  | branch (entries : List (E × I))
deriving DecidableEq, Repr

structure Node (I E L : Type) where
  id : I
  isRoot : Bool
  body : Body I E L
deriving DecidableEq, Repr

abbrev Store (I E L : Type) : Type := I → Option (Node I E L)

namespace Node

def isLeaf (node : Node I E L) : Bool :=
  match node.body with
  | .leaf _ => true
  | .branch _ => false

def entries (node : Node I E L) : List (E × I) :=
  match node.body with
  | .leaf _ => []
  | .branch entries => entries

def keysAt (node : Node I E L) (idx : Nat) : Option E := (node.entries[idx]?).map Prod.fst

end Node

def ChildAt (store : Store I E L) (node : Node I E L) (idx : Nat) (child : Node I E L) : Prop :=
  ∃ e, node.entries[idx]? = some e ∧ store e.2 = some child

def Child (store : Store I E L) (node child : Node I E L) : Prop :=
  ∃ idx, ChildAt store node idx child

def Subtree (store : Store I E L) : Nat → Node I E L → Prop
  | 0, node => node.isLeaf = true
  | height + 1, node => node.isLeaf = false
      ∧ ∀ e ∈ node.entries, ∃ child, store e.2 = some child ∧ child.isRoot = false
        ∧ Subtree store height child

structure Tree (I E L : Type) where
  store : Store I E L
  rootId : I
  root : Node I E L
  height : Nat
  get_root : store rootId = some root
  isRoot : root.isRoot = true
  subtree : Subtree store height root

def Tree.Has (t : Tree I E L) (node : Node I E L) : Prop :=
  Relation.ReflTransGen (Child t.store) t.root node

end Memoria.BTree

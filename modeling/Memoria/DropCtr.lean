import Memoria.Lib.DropGraph
import Memoria.Lib.RefGraph

/-!
# Dropping containers

`drop_ctr` of a snapshot and `drop` of the containers, in both profiles. A container drops the
containers it refers to first, then its own blocks, then its entry in the directory. Without CoW a
container owns its blocks; with CoW blocks are shared, each with a counter of the references to it.

The directory and the blocks are finite maps, given by their keys and a total function, and the ids
of the blocks that are removed are kept in the order of the removals. `none` stands for an error or
the end of the process. Without CoW every block in use has one of the 256 slots of a pool, and a
recursion is bounded by the number of free slots: a call holds the block of its caller. With CoW it
is bounded by a number of levels.
-/

namespace Memoria.DropCtr

variable {N I : Type} [DecidableEq N] [DecidableEq I]

structure Block (N I : Type) where
  children : List I
  references : List (Option N)

structure Snapshot (N I : Type) where
  names : Finset N
  root : N → I
  ids : Finset I
  block : I → Block N I
  refs : I → ℕ
  removed : List I

structure Slots (N : Type) where
  find : Finset N → N → ℕ
  remove : Finset N → N → ℕ

inductive Profile (N : Type) where
  | noCow (slots : Slots N)
  | cow

namespace Snapshot

def getRootID (s : Snapshot N I) (name : N) : Option I :=
  if name ∈ s.names then some (s.root name) else none

def getRootIDWithin (profile : Profile N) (free : ℕ) (s : Snapshot N I) (name : N) :
    Option (Option I) :=
  match profile with
  | .noCow slots => if slots.find s.names name ≤ free then some (s.getRootID name) else none
  | .cow => some (s.getRootID name)

def getBlock (s : Snapshot N I) (id : I) : Option (Block N I) :=
  if id ∈ s.ids then some (s.block id) else none

/-- The block is gone. A block in use is only marked by `removeBlock` and is gone when it is
released. -/
def removeBlock (s : Snapshot N I) (id : I) : Snapshot N I :=
  { s with ids := s.ids.erase id, removed := s.removed ++ [id] }

/-- The removal of a name from the directory, by `setRoot` for the null id. -/
def removeName (s : Snapshot N I) (name : N) : Snapshot N I :=
  { s with names := s.names.erase name }

def ctrRemoveNodeRecursively : ℕ → Snapshot N I → I → Option (Snapshot N I)
  | 0, s, id => do
    let node ← s.getBlock id
    if node.children.isEmpty then some s else none
  | free + 1, s, id => do
    let node ← s.getBlock id
    node.children.foldlM (fun s id => do
      let s ← ctrRemoveNodeRecursively free s id
      some (s.removeBlock id)) s

def unrefBlock (s : Snapshot N I) (id : I) : Option (Snapshot N I × Bool) :=
  if s.refs id < 1 then none
  else some ({ s with refs := Function.update s.refs id (s.refs id - 1) }, s.refs id = 1)

def ctrUnrefBlock : ℕ → Snapshot N I → I → Option (Snapshot N I)
  | 0, _, _ => none
  | fuel + 1, s, id => do
    let block ← s.getBlock id
    let (s, no_references) ← s.unrefBlock id
    if no_references then do
      let s ← block.children.foldlM (ctrUnrefBlock fuel) s
      some (s.removeBlock id)
    else some s

def ctrUnrefBlockCascade (fuel : ℕ) (s : Snapshot N I) (id : I) : Option (Snapshot N I) := do
  let block ← s.getBlock id
  let s ← block.children.foldlM (ctrUnrefBlock fuel) s
  some (s.removeBlock id)

def unrefCtrRoot (fuel : ℕ) (s : Snapshot N I) (id : I) : Option (Snapshot N I) := do
  let _ ← s.getBlock id
  let (s, no_references) ← s.unrefBlock id
  if no_references then ctrUnrefBlockCascade fuel s id else some s

end Snapshot

/-- `drop` of a container, after the containers it refers to. The root is released last. With CoW no
path down is longer than the number of the blocks, and the leaf of the directory has been copied by
then, so that the entry has a reference of its own. -/
def drop (profile : Profile N) (free : ℕ) (s : Snapshot N I) (name : N) : Option (Snapshot N I) :=
  match profile with
  | .noCow slots => do
    let t ← s.ctrRemoveNodeRecursively free (s.root name)
    if slots.remove t.names name ≤ free then
      some ((t.removeName name).removeBlock (s.root name))
    else none
  | .cow => (s.removeName name).unrefCtrRoot s.ids.card (s.root name)

/-- `drop_ctr`. The root of the container is held to the end. The null id stands for the directory
itself, which is dropped up to an error. -/
def dropCtr (profile : Profile N) : ℕ → Snapshot N I → Option N → Option (Snapshot N I × Bool)
  | 0, _, _ => none
  | _ + 1, _, none => none
  | free + 1, s, some name => do
    match ← s.getRootIDWithin profile (free + 1) name with
    | none => some (s, false)
    | some root_id => do
      let block ← s.getBlock root_id
      -- `find` looks for the name once more
      let _ ← s.getRootIDWithin profile free name
      let s ← block.references.foldlM
        (fun s ctr_id => (dropCtr profile free s ctr_id).map Prod.fst) s
      let s ← drop profile free s name
      some (s, true)

namespace Snapshot

variable (s : Snapshot N I)

def children (id : I) : List I := (s.block id).children

def Refers (a b : Option N) : Prop :=
  ∃ name ∈ s.names, a = some name ∧ b ∈ (s.block (s.root name)).references

def Reaches : Option N → Option N → Prop :=
  Relation.ReflTransGen s.Refers

def Under (id b : I) : Prop :=
  Relation.ReflTransGen (Lib.Below s.children) id b

def Owns (name : N) (b : I) : Prop := s.Under (s.root name) b

def entries (b : I) : ℕ := (s.names.filter fun name => s.root name = b).card

/-- The references to the blocks of a snapshot from its directory and from elsewhere are those that
hold them, and there are no cycles of blocks. Without CoW nothing else refers to the blocks, and none
of them has two references; with CoW the counters are right. -/
structure WellFormed (profile : Profile N) (elsewhere : I → ℕ) : Prop where
  held : Lib.Held s.children s.ids fun b => s.entries b + elsewhere b
  level : ∃ level : I → ℕ, ∀ b ∈ s.ids, ∀ c ∈ s.children b, level c < level b
  counted : match profile with
    | .noCow _ => (∀ b, elsewhere b = 0) ∧ ∀ b ∈ s.ids, Lib.edges s.children s.ids b + s.entries b = 1
    | .cow => ∀ b ∈ s.ids,
        s.refs b = Lib.edges s.children s.ids b + (s.entries b + elsewhere b)

structure Dropped (profile : Profile N) (elsewhere : I → ℕ) (name : Option N) (s' : Snapshot N I)
    (result : Bool) : Prop where
  wellFormed : s'.WellFormed profile elsewhere
  names : ∀ n, n ∈ s'.names ↔ n ∈ s.names ∧ ¬ s.Reaches name (some n)
  root : s'.root = s.root
  block : s'.block = s.block
  ids : ∀ b, b ∈ s'.ids ↔ b ∈ s.ids ∧
    ((∃ n ∈ s.names, ¬ s.Reaches name (some n) ∧ s.Owns n b) ∨ ∃ r, 0 < elsewhere r ∧ s.Under r b)
  owned : profile ≠ .cow → ∀ b ∈ s.ids,
    (b ∉ s'.ids ↔ ∃ n ∈ s.names, s.Reaches name (some n) ∧ s.Owns n b)
  result : result = true ↔ ∃ n ∈ s.names, name = some n
  removed : ∃ ids, s'.removed = s.removed ++ ids ∧ ids.Nodup ∧ ∀ b, b ∈ ids ↔ b ∈ s.ids ∧ b ∉ s'.ids

/-- No cycle of references and no reference to the null id can be reached. -/
def Acyclic (name : Option N) : Prop :=
  ¬ s.Reaches name none ∧ ∀ a, s.Reaches name a → ¬ Relation.TransGen s.Refers a a

def Fits : ℕ → I → Bool
  | 0, id => (s.children id).isEmpty
  | free + 1, id => (s.children id).all (Fits free)

/-- A walk along the references from `a`, which calls at the containers that are still there, with
those that are left after it. It ends early where a slot is missing. -/
def walk (slots : Slots N) (references : N → List (Option N)) (fits : ℕ → N → Bool) :
    ℕ → Finset N → Option N → Option (Finset N)
  | 0, _, _ => none
  | _ + 1, _, none => none
  | free + 1, left, some name =>
    if name ∈ left then
      if slots.find left name ≤ free ∧ fits free name = true then do
        let left ← (references name).foldlM (walk slots references fits free) left
        if slots.remove left name ≤ free then some (left.erase name) else none
      else none
    else if slots.find left name ≤ free + 1 then some left
    else none

def walkFrom (slots : Slots N) : ℕ → Finset N → Option N → Option (Finset N) :=
  walk slots (fun n => (s.block (s.root n)).references) fun free n => s.Fits free (s.root n)

def HasRoom (slots : Slots N) (free : ℕ) (a : Option N) : Prop :=
  ∃ left, s.walkFrom slots free s.names a = some left

def Droppable (profile : Profile N) (free : ℕ) (a : Option N) : Prop :=
  s.Acyclic a ∧ match profile with
    | .noCow slots => s.HasRoom slots free a
    | .cow => True

end Snapshot

/-- A drop comes to an end: without CoW with the slots that are free, with CoW for every number of
levels from some on. -/
def Ends (profile : Profile N) (free : ℕ) (s : Snapshot N I) (a : Option N)
    (outcome : Snapshot N I × Bool) : Prop :=
  match profile with
  | .noCow _ => dropCtr profile free s a = some outcome
  | .cow => ∃ levels, ∀ more ≥ levels, dropCtr profile more s a = some outcome

end Memoria.DropCtr

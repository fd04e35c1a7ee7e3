import Memoria.Lib.Heap

/-!
# The history tree and the snapshot registry

The in-memory store keeps its snapshots in a tree of history nodes and three tables that point into
it: `snapshot_map_`, `named_branches_` and `master_`. Snapshot handles are counted in the node they
belong to, and the data of a dropped snapshot goes when its last handle does. The registry never
looks inside a snapshot's data, so the data is a parameter: a state `D` and the type `R` of the
roots that history nodes hold.

A call gives `none` where the code has no defined behaviour: it follows a dangling pointer or a null
one. Random snapshot ids are drawn from a counter, which stands for their being distinct.
-/

namespace Memoria

open Lib

inductive SnapshotStatus where
  | active
  | committed
  | dropped
  | dataLocked
deriving DecidableEq, Repr

structure DataLayer (D R : Type) where
  /-- The data of a new store whose first snapshot has the given id: the state, the snapshot's root
  and the id of its container directory. -/
  create : Nat → D × R × Nat
  /-- A copy of a root for the snapshot of the given id. -/
  cloneRoot : D → Nat → R → Option (D × R)
  /-- `delete_tree`, with the release of the blocks in its leaves. -/
  deleteTree : D → R → Option D

structure HistoryNode (R : Type) where
  parent : Option Nat
  children : List Nat
  root : Option R
  rootId : Option Nat
  status : SnapshotStatus
  snapshotId : Nat
  references : Nat
  metadata : String
deriving Repr

namespace HistoryNode

variable {R : Type}

def ref (n : HistoryNode R) : HistoryNode R := { n with references := n.references + 1 }

@[simp] theorem ref_references (n : HistoryNode R) : n.ref.references = n.references + 1 := rfl

def unref (n : HistoryNode R) : HistoryNode R := { n with references := n.references - 1 }

@[simp] theorem unref_references (n : HistoryNode R) : n.unref.references = n.references - 1 := rfl

def setStatus (status : SnapshotStatus) (n : HistoryNode R) : HistoryNode R :=
  { n with status := status }

def setMetadata (metadata : String) (n : HistoryNode R) : HistoryNode R :=
  { n with metadata := metadata }

def setRoot (root : Option R) (rootId : Option Nat) (n : HistoryNode R) : HistoryNode R :=
  { n with root := root, rootId := rootId }

def setParent (parent : Nat) (n : HistoryNode R) : HistoryNode R :=
  { n with parent := some parent }

def addChild (child : Nat) (n : HistoryNode R) : HistoryNode R :=
  { n with children := n.children ++ [child] }

def removeChild (child : Nat) (n : HistoryNode R) : HistoryNode R :=
  { n with children := n.children.erase child }

end HistoryNode

structure MemoryStore (D R : Type) where
  history : Heap (HistoryNode R)
  historyTree : Nat
  master : Nat
  snapshotMap : Nat → Option Nat
  namedBranches : List (String × Nat)
  activeSnapshots : Int
  /-- The live snapshot handles, each with the history node it belongs to. -/
  handles : Heap Nat
  nextSnapshotId : Nat
  data : D

namespace MemoryStore

variable {D R : Type}

def modifyNode (s : MemoryStore D R) (p : Nat) (f : HistoryNode R → HistoryNode R) :
    MemoryStore D R :=
  { s with history := s.history.modify p f }

def deleteNode (s : MemoryStore D R) (p : Nat) : MemoryStore D R :=
  { s with history := s.history.free p }

/-- The state the store's constructor leaves: the root snapshot is committed and its handle is gone
again. -/
def create (L : DataLayer D R) : MemoryStore D R :=
  let (data, root, rootId) := L.create 0
  { history := Heap.empty.alloc
      { parent := none, children := [], root := some root, rootId := some rootId,
        status := .committed, snapshotId := 0, references := 0, metadata := "" }
    historyTree := 0
    master := 0
    snapshotMap := fun id => if id = 0 then some 0 else none
    namedBranches := []
    activeSnapshots := 0
    handles := Heap.empty
    nextSnapshotId := 1
    data := data }

def removeFromParent (s : MemoryStore D R) (p : Nat) : Option (MemoryStore D R) := do
  let node ← s.history.read p
  match node.parent with
  | none => some s
  | some q =>
      let _ ← s.history.read q
      some (s.modifyNode q (.removeChild p))

/-- A node without children is deleted, one with a single child is replaced by it, and any other
stays. -/
def doRemoveHistoryNode (s : MemoryStore D R) (p : Nat) : Option (MemoryStore D R) := do
  let node ← s.history.read p
  match node.children with
  | [] =>
      let s ← s.removeFromParent p
      some (s.deleteNode p)
  | [child] =>
      let s ← s.removeFromParent p
      let s := s.deleteNode p
      let parent ← node.parent
      let _ ← s.history.read parent
      let _ ← s.history.read child
      some ((s.modifyNode parent (.addChild child)).modifyNode child (.setParent parent))
  | _ => some s

/-- `do_pack` below one node. The children are visited in a copy of the list that was there before
any of them was removed. -/
def doPackNode (branches : List Nat) : Nat → MemoryStore D R → Nat → Option (MemoryStore D R)
  | 0, _, _ => none
  | fuel + 1, s, p => do
      let node ← s.history.read p
      let s ← node.children.foldlM (fun s child => doPackNode branches fuel s child) s
      let node ← s.history.read p
      if node.root.isNone ∧ node.references = 0 ∧ p ∉ branches then
        doRemoveHistoryNode s p
      else
        some s

def doPackBranch (s : MemoryStore D R) (branch : String × Nat) : Option (MemoryStore D R) := do
  let node ← s.history.read branch.2
  if node.root.isNone ∧ node.references = 0 then
    s.doRemoveHistoryNode branch.2
  else
    some s

/-- A node's address is below its children's, so the number of addresses bounds the depth. -/
def doPack (s : MemoryStore D R) : Option (MemoryStore D R) := do
  let branches := s.namedBranches.map Prod.snd
  let s ← doPackNode branches s.history.next s s.historyTree
  s.namedBranches.foldlM doPackBranch s

def pack (s : MemoryStore D R) : Option (MemoryStore D R) := s.doPack

def committedFrom (s : MemoryStore D R) : Nat → Option Nat → Option (Option Nat)
  | 0, _ => none
  | _ + 1, none => some none
  | fuel + 1, some p => do
      let node ← s.history.read p
      if node.status = .committed then
        some (some p)
      else
        s.committedFrom fuel node.parent

def adjustNamedReferences (s : MemoryStore D R) (p : Nat) : Option (MemoryStore D R) := do
  let node ← s.history.read p
  match ← s.committedFrom (s.history.next + 1) node.parent with
  | none => some s
  | some parent =>
      some { s with
        namedBranches := s.namedBranches.map fun branch =>
          if branch.2 = p then (branch.1, parent) else branch
        master := if s.master = p then parent else s.master }

def forgetSnapshot (s : MemoryStore D R) (p : Nat) : Option (MemoryStore D R) := do
  let node ← s.history.read p
  let s := { s with
    snapshotMap := fun id => if id = node.snapshotId then none else s.snapshotMap id }
  let s ← s.removeFromParent p
  some (s.deleteNode p)

/-- The constructor of `PersistentTree` on a history node. The root of an active snapshot is a copy
of its parent's; the assertion that the parent is committed leaves the search for a snapshot that is
not dropped no further step to take. -/
def initTree (L : DataLayer D R) (s : MemoryStore D R) (p : Nat) : Option (MemoryStore D R) := do
  let node ← s.history.read p
  if node.status = .active then
    match node.parent with
    | some q =>
        let parent ← s.history.read q
        guard (parent.status = .committed)
        let target ← parent.root
        let (data, root) ← L.cloneRoot s.data node.snapshotId target
        some ({ s with data := data }.modifyNode p (.setRoot (some root) parent.rootId))
    | none =>
        let _ ← node.root
        some s
  else
    some s

/-- `snp_make_shared_init`. A snapshot whose data is gone has no directory to open and may not make
one: its handle is destroyed at once, and that destructor follows the null root. -/
def makeSnapshot (L : DataLayer D R) (s : MemoryStore D R) (p : Nat) :
    Option (MemoryStore D R) := do
  let s ← s.initTree L p
  let node ← s.history.read p
  let _ ← node.rootId
  some { s.modifyNode p .ref with
    activeSnapshots :=
      if node.status = .active then s.activeSnapshots + 1 else s.activeSnapshots
    handles := s.handles.alloc p }

def doDrop (L : DataLayer D R) (s : MemoryStore D R) (p : Nat) : Option (MemoryStore D R) := do
  let node ← s.history.read p
  let root ← node.root
  let data ← L.deleteTree s.data root
  some ({ s with data := data }.modifyNode p (.setRoot none none))

def release (L : DataLayer D R) (s : MemoryStore D R) (handle : Nat) :
    Option (MemoryStore D R) := do
  let p ← s.handles.read handle
  let node ← s.history.read p
  let s := { s.modifyNode p .unref with handles := s.handles.free handle }
  if node.references = 1 then
    if node.status = .active then
      let s ← doDrop L { s with activeSnapshots := s.activeSnapshots - 1 } p
      s.forgetSnapshot p
    else if node.status = .dropped then
      doDrop L s p
    else
      some s
  else
    some s

def find (L : DataLayer D R) (s : MemoryStore D R) (id : Nat) : Option (MemoryStore D R) :=
  match s.snapshotMap id with
  | none => some s
  | some p => do
      let node ← s.history.read p
      if node.status = .committed then makeSnapshot L s p else some s

def findBranch (L : DataLayer D R) (s : MemoryStore D R) (name : String) :
    Option (MemoryStore D R) :=
  match s.namedBranches.lookup name with
  | none => some s
  | some p => do
      let node ← s.history.read p
      if node.status = .committed then
        makeSnapshot L s p
      else if node.status = .dataLocked ∧ node.references = 0 then
        makeSnapshot L s p
      else
        some s

def openMaster (L : DataLayer D R) (s : MemoryStore D R) : Option (MemoryStore D R) :=
  makeSnapshot L s s.master

def openParent (L : DataLayer D R) (s : MemoryStore D R) (handle : Nat) :
    Option (MemoryStore D R) := do
  let p ← s.handles.read handle
  let node ← s.history.read p
  match node.parent with
  | none => some s
  | some q => makeSnapshot L s q

def commit (s : MemoryStore D R) (handle : Nat) (flushed : Bool) : Option (MemoryStore D R) := do
  let p ← s.handles.read handle
  let node ← s.history.read p
  if node.status = .active ∨ node.status = .dataLocked then
    if flushed then
      some { s.modifyNode p (.setStatus .committed) with
        activeSnapshots := s.activeSnapshots - 1 }
    else
      some s
  else
    some s

def adjustForDrop (s : MemoryStore D R) (p : Nat) (status : SnapshotStatus) :
    Option (MemoryStore D R) :=
  if status = .committed then s.adjustNamedReferences p else some s

def drop (s : MemoryStore D R) (handle : Nat) : Option (MemoryStore D R) := do
  let p ← s.handles.read handle
  let node ← s.history.read p
  if node.parent.isSome then
    let t ← s.adjustForDrop p node.status
    some { t.modifyNode p (.setStatus .dropped) with
      activeSnapshots :=
        if node.status = .active then t.activeSnapshots - 1 else t.activeSnapshots }
  else
    some s

def lockDataForImport (s : MemoryStore D R) (handle : Nat) (openContainers : Bool) :
    Option (MemoryStore D R) := do
  let p ← s.handles.read handle
  let node ← s.history.read p
  if node.status = .active ∧ openContainers = false then
    some (s.modifyNode p (.setStatus .dataLocked))
  else
    some s

def branch (L : DataLayer D R) (s : MemoryStore D R) (handle : Nat) :
    Option (MemoryStore D R) := do
  let p ← s.handles.read handle
  let node ← s.history.read p
  if node.status = .committed then
    let child := s.history.next
    let id := s.nextSnapshotId
    let history := (s.history.alloc
      { parent := some p, children := [], root := none, rootId := none, status := .active,
        snapshotId := id, references := 0, metadata := "" }).modify p (.addChild child)
    makeSnapshot L { s with
      history := history
      snapshotMap := fun i => if i = id then some child else s.snapshotMap i
      nextSnapshotId := id + 1 } child
  else
    some s

def setSnapshotMetadata (s : MemoryStore D R) (handle : Nat) (metadata : String) :
    Option (MemoryStore D R) := do
  let p ← s.handles.read handle
  let node ← s.history.read p
  if node.status = .active then
    some (s.modifyNode p (.setMetadata metadata))
  else
    some s

def setMaster (s : MemoryStore D R) (id : Nat) : Option (MemoryStore D R) :=
  match s.snapshotMap id with
  | none => some s
  | some p => do
      let node ← s.history.read p
      if node.status = .committed ∨ node.status = .dataLocked then
        some { s with master := p }
      else
        some s

def insertBranch (branches : List (String × Nat)) (name : String) (p : Nat) :
    List (String × Nat) :=
  (name, p) :: branches.filter fun branch => branch.1 ≠ name

def setBranch (s : MemoryStore D R) (name : String) (id : Nat) : Option (MemoryStore D R) :=
  match s.snapshotMap id with
  | none => some s
  | some p => do
      let node ← s.history.read p
      if node.status = .committed ∨ node.status = .dataLocked then
        some { s with namedBranches := insertBranch s.namedBranches name p }
      else
        some s

def removeNamedBranch (s : MemoryStore D R) (name : String) : Option (MemoryStore D R) :=
  some { s with namedBranches := s.namedBranches.filter fun branch => branch.1 ≠ name }

inductive Op where
  | branch (handle : Nat)
  | commit (handle : Nat) (flushed : Bool)
  | drop (handle : Nat)
  | lockDataForImport (handle : Nat) (openContainers : Bool)
  | setSnapshotMetadata (handle : Nat) (metadata : String)
  | release (handle : Nat)
  | find (id : Nat)
  | findBranch (name : String)
  | openMaster
  | openParent (handle : Nat)
  | setMaster (id : Nat)
  | setBranch (name : String) (id : Nat)
  | removeNamedBranch (name : String)
  | pack
deriving DecidableEq, Repr

def step (L : DataLayer D R) (s : MemoryStore D R) : Op → Option (MemoryStore D R)
  | .branch handle => s.branch L handle
  | .commit handle flushed => s.commit handle flushed
  | .drop handle => s.drop handle
  | .lockDataForImport handle openContainers => s.lockDataForImport handle openContainers
  | .setSnapshotMetadata handle metadata => s.setSnapshotMetadata handle metadata
  | .release handle => s.release L handle
  | .find id => s.find L id
  | .findBranch name => s.findBranch L name
  | .openMaster => s.openMaster L
  | .openParent handle => s.openParent L handle
  | .setMaster id => s.setMaster id
  | .setBranch name id => s.setBranch name id
  | .removeNamedBranch name => s.removeNamedBranch name
  | .pack => s.pack

def run (L : DataLayer D R) (s : MemoryStore D R) (ops : List Op) : Option (MemoryStore D R) :=
  ops.foldlM (step L) s

end MemoryStore

end Memoria

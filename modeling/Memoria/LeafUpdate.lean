import Mathlib.Algebra.BigOperators.Group.List.Basic
import Mathlib.Algebra.Ring.Int.Defs
import Mathlib.Algebra.Ring.Nat
import Mathlib.Data.Int.Notation
import Mathlib.Logic.Function.Basic
import Mathlib.Order.Lattice
import Memoria.Lib.Actions
import Memoria.Lib.Run

/-!
# Updates of a leaf

The substreams of a leaf lie in one block, in the elements of one packed allocator, and a change
goes to one substream after the other. Each operation keeps a copy of the block in a
`BlockUpdateManager`, from which it restores the block when an element does not get the space it
needs. `Mem` is the content of a block, up to the header fields that say which block it is; what a
packed structure does in it is a parameter.
-/

namespace Memoria

open Lib

inductive ErrorCategory
  | generic
  | packed
  | exception
  deriving DecidableEq, Repr

structure MemoriaError where
  errorCategory : ErrorCategory
  what : String
  deriving DecidableEq, Repr

namespace MemoriaError

def isPackedError (e : MemoriaError) : Bool := e.errorCategory == .packed

def generic (reason : String) : MemoriaError := ⟨.generic, reason⟩

def packedOom : MemoriaError := ⟨.packed, "PackedOOMError"⟩

end MemoriaError

namespace Leaf

inductive BufferInsert (Mem Io : Type) where
  | insertSpace (insert : ℤ → ℤ → Action MemoriaError Mem)
  | insertIoSubstream (insert : ℤ → Io → ℤ → ℤ → Action MemoriaError Mem)

structure Substream (Mem Entry Io : Type) where
  isEmpty : Mem → Bool
  size : Mem → ℤ
  allocateDefault : Action MemoriaError Mem
  /-- `insert_entries(idx, 1, ..)`, and so on. -/
  insertEntry : ℤ → Entry → Action MemoriaError Mem
  updateEntry : ℤ → Entry → Action MemoriaError Mem
  removeEntry : ℤ → Action MemoriaError Mem
  /-- `mergeWith` of the substream in another memory. -/
  mergeFrom : Mem → Action MemoriaError Mem
  insertBuffer : BufferInsert Mem Io

variable {Mem Entry Io : Type}

def layoutFn (streams idx : ℕ) (sub : Substream Mem Entry Io) : Action MemoriaError Mem := fun mem =>
  if streams.testBit idx then
    if sub.isEmpty mem then sub.allocateDefault mem else (.ok (), mem)
  else (.ok (), mem)

def layout (subs : List (Substream Mem Entry Io)) (streams : ℕ) : List (Action MemoriaError Mem) :=
  subs.mapIdx (layoutFn streams)

def insertStreamEntryFn (idx : ℤ) (entry : Entry) (subIdx : ℕ) (sub : Substream Mem Entry Io) :
    Action MemoriaError Mem := fun mem =>
  if sub.isEmpty mem then (.error (.generic s!"Substream {subIdx} is empty"), mem)
  else sub.insertEntry idx entry mem

/-- `InsertStreamEntryFn`. The streams of a leaf have their substreams one behind the other. -/
def insertStreamEntryFns (streams : List (List (Substream Mem Entry Io))) (stream : ℕ) (idx : ℤ)
    (entry : Entry) : List (Action MemoriaError Mem) :=
  layout streams.flatten 255 ++ (streams.getD stream []).mapIdx (insertStreamEntryFn idx entry)

def removeFromLeafFns (streams : List (List (Substream Mem Entry Io))) (stream : ℕ) (idx : ℤ) :
    List (Action MemoriaError Mem) :=
  layout streams.flatten 255 ++ (streams.getD stream []).map fun sub => sub.removeEntry idx

/-- `UpdateStreamEntryBufferFn`. A path in the list of the substreams stands for those from
`start` to `stop`. -/
def updateStreamEntryBufferFns (streams : List (List (Substream Mem Entry Io))) (start stop : ℕ)
    (idx : ℤ) (entry : Entry) : List (Action MemoriaError Mem) :=
  ((streams.flatten.take stop).drop start).map fun sub => sub.updateEntry idx entry

def mergeWithFn (src : Mem) (sub : Substream Mem Entry Io) : Action MemoriaError Mem := fun mem =>
  if 0 < sub.size src then
    if sub.isEmpty mem then runActions [sub.allocateDefault, sub.mergeFrom src] mem
    else sub.mergeFrom src mem
  else (.ok (), mem)

def mergeWithFns (streams : List (List (Substream Mem Entry Io))) (src : Mem) :
    List (Action MemoriaError Mem) :=
  (streams.flatten.filter fun sub => !sub.isEmpty src).map (mergeWithFn src)

structure IOVector (Io : Type) where
  substream : ℕ → Io
  symbolSequence : Io

/-- The substreams of one stream in `InsertBufferFn` and `InsertBuffersFn`: `current` counts the
substreams that rows have been taken for. -/
def insertBufferFn (source : ℕ → Io) (at_ start size : ℤ) :
    ℕ → List (Substream Mem Entry Io) → List (Action MemoriaError Mem)
  | _, [] => []
  | current, sub :: subs =>
      match sub.insertBuffer with
      | .insertSpace insert => insert at_ size :: insertBufferFn source at_ start size current subs
      | .insertIoSubstream insert =>
          insert at_ (source current) start size ::
            insertBufferFn source at_ start size (current + 1) subs

def takesRows (sub : Substream Mem Entry Io) : Bool :=
  match sub.insertBuffer with
  | .insertSpace _ => false
  | .insertIoSubstream _ => true

def insertBufferFns (streams : List (List (Substream Mem Entry Io))) (io : IOVector Io)
    (at_ start size : ℤ) : List (Action MemoriaError Mem) :=
  layout streams.flatten 255 ++ insertBufferFn io.substream at_ start size 0 streams.flatten

def toPosition (dataPos : List ℤ) : List ℤ := dataPos ++ [dataPos.sum]

def insertStreamBuffers (io : IOVector Io) (at_ start size : List ℤ) :
    ℕ → ℕ → List (List (Substream Mem Entry Io)) → List (Action MemoriaError Mem)
  | _, _, [] => []
  | streamIdx, current, [subs] =>
      insertBufferFn (fun _ => io.symbolSequence) (at_.getD streamIdx 0) (start.getD streamIdx 0)
        (size.getD streamIdx 0) current subs
  | streamIdx, current, subs :: streams =>
      insertBufferFn io.substream (at_.getD streamIdx 0) (start.getD streamIdx 0)
          (size.getD streamIdx 0) current subs ++
        insertStreamBuffers io at_ start size (streamIdx + 1) (current + subs.countP takesRows)
          streams

def insertBuffersFns (streams : List (List (Substream Mem Entry Io))) (io : IOVector Io)
    (at_ start size : List ℤ) : List (Action MemoriaError Mem) :=
  layout streams.flatten 255 ++ insertStreamBuffers io at_ start size 0 0 streams

namespace PackedSizedStruct

def insertSpace (idx roomLength size : ℤ) : Except MemoriaError ℤ :=
  if ¬ idx ≤ size then .error (.generic "ASSERT FAILURE: idx <= this->size()")
  else if ¬ idx ≥ 0 then .error (.generic "ASSERT FAILURE: idx >= 0")
  else if ¬ roomLength ≥ 0 then .error (.generic "ASSERT FAILURE: room_length >= 0")
  else .ok (size + roomLength)

def remove (start stop size : ℤ) : Except MemoriaError ℤ :=
  if ¬ start ≥ 0 then .error (.generic "ASSERT FAILURE: start >= 0")
  else if ¬ stop ≥ 0 then .error (.generic "ASSERT FAILURE: end >= 0")
  else .ok (size - (stop - start))

/-- An operation on the element `element` of a leaf in which every element is such a structure. -/
def onElement (element : ℕ) (op : ℤ → Except MemoriaError ℤ) :
    Action MemoriaError (List (Option ℤ)) := fun mem =>
  match op ((mem.getD element none).getD 0) with
  | .ok size => (.ok (), mem.set element (some size))
  | .error e => (.error e, mem)

def substream (element : ℕ) : Substream (List (Option ℤ)) Entry Io where
  isEmpty mem := (mem.getD element none).isNone
  size mem := (mem.getD element none).getD 0
  allocateDefault mem := (.ok (), mem.set element (some 0))
  insertEntry idx _ := onElement element (insertSpace idx 1)
  updateEntry idx _ := onElement element fun size =>
    if idx ≤ size then .ok size else .error (.generic "ASSERT FAILURE: row_at <= this->size()")
  removeEntry idx := onElement element (remove idx (idx + 1))
  mergeFrom src := onElement element fun size =>
    insertSpace size ((src.getD element none).getD 0) size
  insertBuffer := .insertSpace fun at_ roomLength => onElement element (insertSpace at_ roomLength)

end PackedSizedStruct

structure BlockUpdateManager (BlockId Mem : Type) where
  blocks : List (BlockId × Mem)
  within : blocks.length ≤ 4

variable {BlockId : Type}

def BlockUpdateManager.empty : BlockUpdateManager BlockId Mem := ⟨[], Nat.zero_le 4⟩

structure State (BlockId Mem : Type) where
  store : BlockId → Mem
  leaf : BlockId
  mgr : BlockUpdateManager BlockId Mem

def State.opened (s : State BlockId Mem) : State BlockId Mem := { s with mgr := .empty }

structure Ctr (BlockId : Type) where
  isMutableNode : BlockId → Bool
  checkUpdatesAllowed : Except MemoriaError Unit
  allocateMemory : Except MemoriaError Unit
  /-- `ctr_cow_clone_path` from the parent up. -/
  cloneParents : Except MemoriaError Unit
  cloneBlock : Except MemoriaError BlockId
  /-- The copy gets its place in the parent or becomes the root. -/
  setChildId : Except MemoriaError Unit
  /-- What `ctr_try_merge_leaf_nodes` asks before. -/
  checkSamePaths : Except MemoriaError Unit
  getNodeParent : Except MemoriaError Unit
  getChildIdx : Except MemoriaError Unit
  /-- What it does in the tree after. -/
  removeNonLeafNodeEntry : Except MemoriaError Unit
  updatePath : Except MemoriaError Unit
  cowRefChildrenAfterMerge : Except MemoriaError Unit
  unrefBlock : Except MemoriaError Unit
  checkPath : Except MemoriaError Unit

variable [DecidableEq BlockId]

def add (ctr : Ctr BlockId) : Action MemoriaError (State BlockId Mem) := fun s =>
  if h : s.mgr.blocks.length < 4 then
    match ctr.allocateMemory with
    | .ok () =>
        (.ok (), { s with
          mgr := ⟨s.mgr.blocks ++ [(s.leaf, s.store s.leaf)], by
            rw [List.length_append]
            exact h⟩ })
    | .error e => (.error e, s)
  else (.error (.generic "No space left for new blocks in the BlockUpdateMgr"), s)

def checkpointBlocks (node : BlockId) (mem : Mem) : List (BlockId × Mem) → List (BlockId × Mem)
  | [] => []
  | (id, copy) :: rest =>
      if id = node then (id, mem) :: rest else (id, copy) :: checkpointBlocks node mem rest

theorem length_checkpointBlocks (node : BlockId) (mem : Mem) (blocks : List (BlockId × Mem)) :
    (checkpointBlocks node mem blocks).length = blocks.length := by
  induction blocks with
  | nil => rfl
  | cons block rest ih =>
      rw [checkpointBlocks]
      split
      · rfl
      · rw [List.length_cons, List.length_cons, ih]

def checkpoint (s : State BlockId Mem) : State BlockId Mem :=
  { s with
    mgr := ⟨checkpointBlocks s.leaf (s.store s.leaf) s.mgr.blocks, by
      rw [length_checkpointBlocks]
      exact s.mgr.within⟩ }

def restoreNodeState (s : State BlockId Mem) : State BlockId Mem :=
  { s with
    store := s.mgr.blocks.foldl (fun store block => Function.update store block.1 block.2) s.store }

def rollback (s : State BlockId Mem) : State BlockId Mem :=
  { restoreNodeState s with mgr := .empty }

/-- `ctr_cow_clone_path(path, 0)`: a leaf that other versions have too is replaced by a copy. -/
def ctrCowClonePath (ctr : Ctr BlockId) : Action MemoriaError (State BlockId Mem) := fun s =>
  if ctr.isMutableNode s.leaf then (.ok (), s)
  else
    match ctr.cloneParents with
    | .error e => (.error e, s)
    | .ok () =>
        match ctr.cloneBlock with
        | .error e => (.error e, s)
        | .ok id =>
            let s' := { s with store := Function.update s.store id (s.store s.leaf) }
            match ctr.setChildId with
            | .error e => (.error e, s')
            | .ok () => (.ok (), { s' with leaf := id })

def ctrUpdateBlockGuard (ctr : Ctr BlockId) : Action MemoriaError (State BlockId Mem) := fun s =>
  if ctr.isMutableNode s.leaf then (ctr.checkUpdatesAllowed, s)
  else (.error (.generic "CoW Error: trying to update immutable node"), s)

/-- `leaf_dispatcher().dispatch(leaf, fn, ..)`: one substream after the other, up to an error. -/
def dispatch (fns : List (Action MemoriaError Mem)) : Action MemoriaError (State BlockId Mem) :=
  fun s =>
    let (status, mem) := runActions fns (s.store s.leaf)
    (status, { s with store := Function.update s.store s.leaf mem })

/-- What an operation does before it changes the leaf. -/
def protectLeaf (ctr : Ctr BlockId) : List (Action MemoriaError (State BlockId Mem)) :=
  [ctrCowClonePath ctr, ctrUpdateBlockGuard ctr, add ctr]

/-- The change of a leaf by `ctr_try_insert_stream_entry`, `ctr_try_remove_stream_entry` and
`ctr_try_update_stream_entry`. -/
def tryStreamEntry (ctr : Ctr BlockId) (fns : List (Action MemoriaError Mem))
    (s : State BlockId Mem) : Except MemoriaError Bool × State BlockId Mem :=
  match runActions (protectLeaf ctr) s.opened with
  | (.error e, s) => (.error e, s)
  | (.ok (), s) =>
      match dispatch fns s with
      | (.ok (), s) => (.ok true, s)
      | (.error status, s) =>
          if status.isPackedError then (.ok false, rollback s) else (.error status, s)

def ctrTryInsertStreamEntry (streams : List (List (Substream Mem Entry Io))) (ctr : Ctr BlockId)
    (stream : ℕ) (idx : ℤ) (entry : Entry) (s : State BlockId Mem) :
    Except MemoriaError Bool × State BlockId Mem :=
  tryStreamEntry ctr (insertStreamEntryFns streams stream idx entry) s

def ctrTryRemoveStreamEntry (streams : List (List (Substream Mem Entry Io))) (ctr : Ctr BlockId)
    (stream : ℕ) (idx : ℤ) (s : State BlockId Mem) : Except MemoriaError Bool × State BlockId Mem :=
  tryStreamEntry ctr (removeFromLeafFns streams stream idx) s

def ctrTryUpdateStreamEntry (streams : List (List (Substream Mem Entry Io))) (ctr : Ctr BlockId)
    (start stop : ℕ) (idx : ℤ) (entry : Entry) (s : State BlockId Mem) :
    Except MemoriaError Bool × State BlockId Mem :=
  tryStreamEntry ctr (updateStreamEntryBufferFns streams start stop idx entry) s

/-- What `ctr_try_merge_leaf_nodes` does before it changes the leaf. -/
def prepareMerge (ctr : Ctr BlockId) : List (Action MemoriaError (State BlockId Mem)) :=
  [ctr.checkSamePaths, ctr.getNodeParent, ctr.getChildIdx].map reporting ++ protectLeaf ctr

def finishMerge (ctr : Ctr BlockId) : List (Action MemoriaError (State BlockId Mem)) :=
  [ctr.removeNonLeafNodeEntry, ctr.updatePath, ctr.cowRefChildrenAfterMerge, ctr.unrefBlock,
    ctr.checkPath].map reporting

def ctrTryMergeLeafNodes (streams : List (List (Substream Mem Entry Io))) (ctr : Ctr BlockId)
    (src : BlockId) (s : State BlockId Mem) : Except MemoriaError Bool × State BlockId Mem :=
  match runActions (prepareMerge ctr) s.opened with
  | (.error e, s) => (.error e, s)
  | (.ok (), s) =>
      match dispatch (mergeWithFns streams (s.store src)) s with
      | (.error res, s) => if res.isPackedError then (.ok false, rollback s) else (.error res, s)
      | (.ok (), s) =>
          match runActions (finishMerge ctr) s with
          | (.error e, s) => (.error e, s)
          | (.ok (), s) => (.ok true, s)

def Btss.tryInsertBuffer (streams : List (List (Substream Mem Entry Io))) (io : IOVector Io)
    (at_ start size : ℤ) (s : State BlockId Mem) : Except MemoriaError Bool × State BlockId Mem :=
  match dispatch (insertBufferFns streams io at_ start size) s with
  | (.error status, s) =>
      if status.isPackedError then (.ok false, restoreNodeState s) else (.error status, s)
  | (.ok (), s) => (.ok true, checkpoint s)

/-- `tryInsertBuffer` of the providers of `bt_fl`. There is no branch for an error that is not a
packed one. -/
def Btfl.tryInsertBuffer (streams : List (List (Substream Mem Entry Io))) (io : IOVector Io)
    (at_ start size : List ℤ) (s : State BlockId Mem) :
    Except MemoriaError Bool × State BlockId Mem :=
  match dispatch (insertBuffersFns streams io (toPosition at_) (toPosition start) (toPosition size))
    s with
  | (.error status, s) =>
      if status.isPackedError then (.ok false, restoreNodeState s) else (.ok true, checkpoint s)
  | (.ok (), s) => (.ok true, checkpoint s)

/-- A call of `tryInsertBuffer` in the loops of `fill`, and the next one after it, unless it gives
an error. -/
def nextTry {α : Type} (call : α → State BlockId Mem → Except MemoriaError Bool × State BlockId Mem)
    (s : State BlockId Mem) (args : α) : Option (State BlockId Mem) :=
  match call args s with
  | (.ok _, s) => some s
  | (.error _, _) => none

inductive Call (BlockId Entry Io : Type) where
  | insertStreamEntry (stream : ℕ) (idx : ℤ) (entry : Entry)
  | updateStreamEntry (start stop : ℕ) (idx : ℤ) (entry : Entry)
  | removeStreamEntry (stream : ℕ) (idx : ℤ)
  | mergeLeafNodes (src : BlockId)
  | fillSs (tries : List (IOVector Io × ℤ × ℤ × ℤ))
  | fillFl (tries : List (IOVector Io × List ℤ × List ℤ × List ℤ))

structure AllOrNothing (fns : List (Action MemoriaError Mem)) (before : Mem)
    (outcome : Except MemoriaError Bool × State BlockId Mem) : Prop where
  applied : outcome.1 = .ok true → Applied fns before (outcome.2.store outcome.2.leaf)
  untouched : outcome.1 = .ok false →
    outcome.2.store outcome.2.leaf = before ∧ ∃ e, e.isPackedError = true ∧ FailsWith e fns before
  handed : ∀ e, FailsWith e fns before → e.isPackedError = false → outcome.1 = .error e

/-- An operation with what it does before and after the change: an error there is the caller's. -/
def AllOrNothingWithin (prepare : List (Action MemoriaError (State BlockId Mem)))
    (fns : State BlockId Mem → List (Action MemoriaError Mem))
    (finish : List (Action MemoriaError (State BlockId Mem))) (s : State BlockId Mem)
    (outcome : Except MemoriaError Bool × State BlockId Mem) : Prop :=
  (∀ e, FailsWith e prepare s → outcome.1 = .error e) ∧
    ∀ t, Applied prepare s t →
      AllOrNothing (fns t) (s.store s.leaf) outcome ∧
        ∀ mem, Applied (fns t) (s.store s.leaf) mem → ∀ u e, FailsWith e finish u →
          outcome.1 = .error e

def Call.AllOrNothing (streams : List (List (Substream Mem Entry Io))) (ctr : Ctr BlockId)
    (s : State BlockId Mem) : Call BlockId Entry Io → Prop
  | .insertStreamEntry stream idx entry =>
      AllOrNothingWithin (protectLeaf ctr) (fun _ => insertStreamEntryFns streams stream idx entry) []
        s.opened (ctrTryInsertStreamEntry streams ctr stream idx entry s)
  | .updateStreamEntry start stop idx entry =>
      AllOrNothingWithin (protectLeaf ctr)
        (fun _ => updateStreamEntryBufferFns streams start stop idx entry) [] s.opened
        (ctrTryUpdateStreamEntry streams ctr start stop idx entry s)
  | .removeStreamEntry stream idx =>
      AllOrNothingWithin (protectLeaf ctr) (fun _ => removeFromLeafFns streams stream idx) [] s.opened
        (ctrTryRemoveStreamEntry streams ctr stream idx s)
  | .mergeLeafNodes src =>
      AllOrNothingWithin (prepareMerge ctr) (fun t => mergeWithFns streams (t.store src))
        (finishMerge ctr) s.opened (ctrTryMergeLeafNodes streams ctr src s)
  | .fillSs tries =>
      ∀ t, Applied [add ctr] s.opened t →
        EveryStep (nextTry fun (io, at_, start, size) => Btss.tryInsertBuffer streams io at_ start size)
          (fun u (io, at_, start, size) =>
            Leaf.AllOrNothing (insertBufferFns streams io at_ start size) (u.store u.leaf)
              (Btss.tryInsertBuffer streams io at_ start size u)) t tries
  | .fillFl tries =>
      ∀ t, Applied [add ctr] s.opened t →
        EveryStep (nextTry fun (io, at_, start, size) => Btfl.tryInsertBuffer streams io at_ start size)
          (fun u (io, at_, start, size) =>
            Leaf.AllOrNothing
              (insertBuffersFns streams io (toPosition at_) (toPosition start) (toPosition size))
              (u.store u.leaf) (Btfl.tryInsertBuffer streams io at_ start size u)) t tries

/-- The substreams of `bt_fl` refuse a buffer for lack of space only. -/
def Call.RefusesForSpace (streams : List (List (Substream Mem Entry Io))) (ctr : Ctr BlockId)
    (s : State BlockId Mem) : Call BlockId Entry Io → Prop
  | .fillFl tries =>
      ∀ t, Applied [add ctr] s.opened t →
        EveryStep (nextTry fun (io, at_, start, size) => Btfl.tryInsertBuffer streams io at_ start size)
          (fun u (io, at_, start, size) =>
            ∀ e, FailsWith e
                (insertBuffersFns streams io (toPosition at_) (toPosition start) (toPosition size))
                (u.store u.leaf) →
              e.isPackedError = true) t tries
  | _ => True

end Leaf

end Memoria

import Memoria.Proof.HistoryRuns

/-!
# The data of snapshots under the calls of the registry

The registry moves history nodes about, and of all its calls only a branch and the release of a last
handle reach the data of a snapshot. The others keep every root where it is and make no snapshot
active.
-/

namespace Memoria.MemoryStore

open Lib

variable {D R : Type} {s s' s'' : MemoryStore D R} {p q : Nat}

def rootOf (s : MemoryStore D R) (p : Nat) : Option R := (s.history.read p).bind HistoryNode.root

def activeId (s : MemoryStore D R) (p : Nat) : Option Nat :=
  (s.history.read p).bind fun n => if n.status = .active then some n.snapshotId else none

structure SameTrees (s s' : MemoryStore D R) : Prop where
  data : s'.data = s.data
  root : ∀ p, s'.rootOf p = s.rootOf p
  active : ∀ p id, s'.activeId p = some id → s.activeId p = some id
  ids : s'.nextSnapshotId = s.nextSnapshotId
  next : s'.history.next = s.history.next

theorem SameTrees.of_history_eq (hhistory : s'.history = s.history) (hdata : s'.data = s.data)
    (hids : s'.nextSnapshotId = s.nextSnapshotId) : SameTrees s s' := by
  refine ⟨hdata, ?_, ?_, hids, by rw [hhistory]⟩
  · intro p
    rw [rootOf, rootOf, hhistory]
  · intro p id h
    rwa [activeId, hhistory] at h

theorem SameTrees.refl (s : MemoryStore D R) : SameTrees s s := .of_history_eq rfl rfl rfl

theorem SameTrees.trans (h : SameTrees s s') (h' : SameTrees s' s'') : SameTrees s s'' :=
  ⟨h'.data.trans h.data, fun p => (h'.root p).trans (h.root p),
    fun p id hid => h.active p id (h'.active p id hid), h'.ids.trans h.ids, h'.next.trans h.next⟩

/-- A write to a node beside its data that does not make it active. -/
theorem SameTrees.modifyNode (s : MemoryStore D R) (p : Nat) {f : HistoryNode R → HistoryNode R}
    (hroot : ∀ n, (f n).root = n.root) (hid : ∀ n, (f n).snapshotId = n.snapshotId)
    (hactive : ∀ n, (f n).status = .active → n.status = .active) :
    SameTrees s (s.modifyNode p f) := by
  refine ⟨rfl, ?_, ?_, rfl, rfl⟩
  · intro q
    simp only [rootOf, read_modifyNode]
    split
    · cases s.history.read q with
      | none => rfl
      | some n => exact hroot n
    · rfl
  · intro q id h
    simp only [activeId, read_modifyNode] at h ⊢
    split at h
    · cases hread : s.history.read q with
      | none =>
          rw [hread] at h
          cases h
      | some n =>
          rw [hread, Option.map_some, Option.bind_some, hid] at h
          split at h
          · rename_i hst
            rw [Option.bind_some, if_pos (hactive n hst), h]
          · cases h
    · exact h

/-- A node without data goes. -/
theorem Spliced.sameTrees {n : HistoryNode R} (h : Spliced s s' p q n) (hdata : s'.data = s.data)
    (hroot : s.rootOf p = none) : SameTrees s s' := by
  refine ⟨hdata, ?_, ?_, h.ids, h.next⟩
  · intro r
    by_cases hr : r = p
    · rw [hr, hroot, rootOf, h.read, if_pos rfl]
      rfl
    · rw [rootOf, rootOf, h.read, if_neg hr]
      cases s.history.read r <;> rfl
  · intro r id hid
    rw [activeId, h.read] at hid
    split at hid
    · cases hid
    · rw [activeId]
      cases hread : s.history.read r with
      | none =>
          rw [hread] at hid
          cases hid
      | some m =>
          rw [hread] at hid
          exact hid

theorem sameTrees_makeSnapshot {L : DataLayer D R} {n : HistoryNode R}
    (hread : s.history.read p = some n) (hst : n.status ≠ .active)
    (h : makeSnapshot L s p = some s') : SameTrees s s' := by
  obtain ⟨-, rfl⟩ := makeSnapshot_of_not_active hread hst h
  exact (SameTrees.modifyNode s p (f := .ref) (fun _ => rfl) (fun _ => rfl) (fun _ h => h)).trans
    (.of_history_eq rfl rfl rfl)

theorem sameTrees_find {L : DataLayer D R} {id : Nat} (h : s.find L id = some s') :
    SameTrees s s' := by
  unfold find at h
  split at h
  · cases h
    exact .refl s
  · simp only [Option.bind_eq_bind, Option.bind_eq_some_iff] at h
    obtain ⟨n, hn, h⟩ := h
    split at h
    · rename_i hst
      exact sameTrees_makeSnapshot hn (by rw [hst]; decide) h
    · cases h
      exact .refl s

theorem sameTrees_findBranch {L : DataLayer D R} {name : String}
    (h : s.findBranch L name = some s') : SameTrees s s' := by
  unfold findBranch at h
  split at h
  · cases h
    exact .refl s
  · simp only [Option.bind_eq_bind, Option.bind_eq_some_iff] at h
    obtain ⟨n, hn, h⟩ := h
    split at h
    · rename_i hst
      exact sameTrees_makeSnapshot hn (by rw [hst]; decide) h
    · split at h
      · rename_i hlocked
        exact sameTrees_makeSnapshot hn (by rw [hlocked.1]; decide) h
      · cases h
        exact .refl s

theorem sameTrees_openMaster {L : DataLayer D R} (hs : Inv s) (h : s.openMaster L = some s') :
    SameTrees s s' := by
  obtain ⟨n, hn⟩ := exists_read_of_makeSnapshot h
  exact sameTrees_makeSnapshot hn (hs.statuses.master.2 hn) h

theorem sameTrees_openParent {L : DataLayer D R} (hs : Inv s) {handle : Nat}
    (h : s.openParent L handle = some s') : SameTrees s s' := by
  simp only [openParent, Option.bind_eq_bind, Option.bind_eq_some_iff] at h
  obtain ⟨p, hp, n, hn, h⟩ := h
  split at h
  · cases h
    exact .refl s
  · rename_i q hq
    obtain ⟨-, m, hm, hmem⟩ := hs.shape.parentLive hn hq
    exact sameTrees_makeSnapshot hm ((hs.statuses.node hm).ne_active_of_mem hmem) h

theorem sameTrees_setStatus (s : MemoryStore D R) (p : Nat) {status : SnapshotStatus}
    (hst : status ≠ .active) : SameTrees s (s.modifyNode p (.setStatus status)) :=
  .modifyNode s p (f := .setStatus status) (fun _ => rfl) (fun _ => rfl)
    fun _ h => absurd h hst

theorem sameTrees_commit {handle : Nat} {flushed : Bool} (h : s.commit handle flushed = some s') :
    SameTrees s s' := by
  simp only [commit, Option.bind_eq_bind, Option.bind_eq_some_iff] at h
  obtain ⟨p, -, n, -, h⟩ := h
  split at h
  · split at h
    · cases h
      exact (sameTrees_setStatus s p (by decide)).trans (.of_history_eq rfl rfl rfl)
    · cases h
      exact .refl s
  · cases h
    exact .refl s

theorem sameTrees_lockDataForImport {handle : Nat} {openContainers : Bool}
    (h : s.lockDataForImport handle openContainers = some s') : SameTrees s s' := by
  simp only [lockDataForImport, Option.bind_eq_bind, Option.bind_eq_some_iff] at h
  obtain ⟨p, -, n, -, h⟩ := h
  split at h
  · cases h
    exact sameTrees_setStatus s p (by decide)
  · cases h
    exact .refl s

theorem sameTrees_setSnapshotMetadata {handle : Nat} {metadata : String}
    (h : s.setSnapshotMetadata handle metadata = some s') : SameTrees s s' := by
  simp only [setSnapshotMetadata, Option.bind_eq_bind, Option.bind_eq_some_iff] at h
  obtain ⟨p, -, n, -, h⟩ := h
  split at h
  · cases h
    exact .modifyNode s p (f := .setMetadata metadata) (fun _ => rfl) (fun _ => rfl) fun _ h => h
  · cases h
    exact .refl s

theorem sameTrees_drop (hs : Inv s) {handle : Nat} (h : s.drop handle = some s') :
    SameTrees s s' := by
  simp only [drop, Option.bind_eq_bind, Option.bind_eq_some_iff] at h
  obtain ⟨p, -, n, hn, h⟩ := h
  split at h
  · rename_i hparent
    obtain ⟨t, ht, h⟩ := Option.bind_eq_some_iff.mp h
    cases h
    have hadjust : SameTrees s t := by
      unfold adjustForDrop at ht
      split at ht
      · obtain ⟨q, m, -, -, -, rfl⟩ := adjustNamedReferences_eq hs hn hparent ht
        exact .of_history_eq rfl rfl rfl
      · cases ht
        exact .refl s
    exact (hadjust.trans (sameTrees_setStatus t p (by decide))).trans (.of_history_eq rfl rfl rfl)
  · cases h
    exact .refl s

theorem sameTrees_setMaster {id : Nat} (h : s.setMaster id = some s') : SameTrees s s' := by
  unfold setMaster at h
  split at h
  · cases h
    exact .refl s
  · simp only [Option.bind_eq_bind, Option.bind_eq_some_iff] at h
    obtain ⟨n, -, h⟩ := h
    split at h <;> cases h <;> exact .of_history_eq rfl rfl rfl

theorem sameTrees_setBranch {name : String} {id : Nat} (h : s.setBranch name id = some s') :
    SameTrees s s' := by
  unfold setBranch at h
  split at h
  · cases h
    exact .refl s
  · simp only [Option.bind_eq_bind, Option.bind_eq_some_iff] at h
    obtain ⟨n, -, h⟩ := h
    split at h <;> cases h <;> exact .of_history_eq rfl rfl rfl

theorem sameTrees_doRemoveHistoryNode (hs : Inv s) {n : HistoryNode R}
    (hread : s.history.read p = some n) (hroot : n.root = none)
    (h : s.doRemoveHistoryNode p = some s') : SameTrees s s' := by
  obtain ⟨hst, -⟩ := (hs.statuses.node hread).cleared hroot
  obtain ⟨q, hq⟩ := (hs.statuses.node hread).exists_parent (by rw [hst]; decide)
  rcases doRemoveHistoryNode_cases hs hread hq h with rfl | ⟨hspliced, -⟩
  · exact .refl s'
  · refine hspliced.sameTrees ?_ (by rw [rootOf, hread]; exact hroot)
    simp only [doRemoveHistoryNode, removeFromParent, hread, hq, Option.bind_eq_bind,
      Option.bind_some] at h
    split at h
    · simp only [Option.bind_eq_some_iff, Option.some.injEq] at h
      obtain ⟨_, ⟨_, -, rfl⟩, rfl⟩ := h
      rfl
    · simp only [Option.bind_eq_some_iff, Option.some.injEq] at h
      obtain ⟨_, ⟨_, -, rfl⟩, _, -, _, -, rfl⟩ := h
      rfl
    · cases h
      rfl

theorem sameTrees_doPackNode {branches : List Nat} {fuel : Nat} (hs : Inv s)
    (h : doPackNode branches fuel s p = some s') : SameTrees s s' := by
  induction fuel generalizing s s' p with
  | zero => cases h
  | succ fuel ih =>
      simp only [doPackNode, Option.bind_eq_bind, Option.bind_eq_some_iff] at h
      obtain ⟨n, -, t, ht, m, hm, h⟩ := h
      have hbelow : Inv t ∧ SameTrees s t := by
        refine foldlM_keeps (I := fun u => Inv u ∧ SameTrees s u) ?_ ⟨hs, .refl s⟩ ht
        rintro u c u' ⟨hu, hsame⟩ hu'
        exact ⟨(doPackNode_spec hu hu').1, hsame.trans (ih hu hu')⟩
      split at h
      · rename_i hcond
        exact hbelow.2.trans (sameTrees_doRemoveHistoryNode hbelow.1 hm
          (Option.isNone_iff_eq_none.mp hcond.1) h)
      · cases h
        exact hbelow.2

theorem sameTrees_pack (hs : Inv s) (h : s.pack = some s') : SameTrees s s' := by
  simp only [pack, doPack, Option.bind_eq_bind, Option.bind_eq_some_iff] at h
  obtain ⟨t, ht, h⟩ := h
  have hnode : Inv t ∧ SameTrees s t := ⟨(doPackNode_spec hs ht).1, sameTrees_doPackNode hs ht⟩
  refine (foldlM_keeps (I := fun u => Inv u ∧ SameTrees s u) ?_ hnode h).2
  rintro u b u' ⟨hu, hsame⟩ hu'
  refine ⟨(doPackBranch_spec hu hu').1, hsame.trans ?_⟩
  simp only [doPackBranch, Option.bind_eq_bind, Option.bind_eq_some_iff] at hu'
  obtain ⟨n, hn, hu'⟩ := hu'
  split at hu'
  · rename_i hcond
    exact sameTrees_doRemoveHistoryNode hu hn (Option.isNone_iff_eq_none.mp hcond.1) hu'
  · cases hu'
    exact .refl u

def LeavesData : Op → Prop
  | .branch _ => False
  | .release _ => False
  | _ => True

theorem sameTrees_step {L : DataLayer D R} (hs : Inv s) {op : Op} (hop : LeavesData op)
    (h : step L s op = some s') : SameTrees s s' := by
  cases op with
  | branch handle => cases hop
  | release handle => cases hop
  | commit handle flushed => exact sameTrees_commit h
  | drop handle => exact sameTrees_drop hs h
  | lockDataForImport handle openContainers => exact sameTrees_lockDataForImport h
  | setSnapshotMetadata handle metadata => exact sameTrees_setSnapshotMetadata h
  | find id => exact sameTrees_find h
  | findBranch name => exact sameTrees_findBranch h
  | openMaster => exact sameTrees_openMaster hs h
  | openParent handle => exact sameTrees_openParent hs h
  | setMaster id => exact sameTrees_setMaster h
  | setBranch name id => exact sameTrees_setBranch h
  | removeNamedBranch name =>
      cases h
      exact .of_history_eq rfl rfl rfl
  | pack => exact sameTrees_pack hs h

theorem Inv.exists_of_handle (hs : Inv s) {handle : Nat} (hp : s.handles.read handle = some p) :
    ∃ n r, s.history.read p = some n ∧ n.root = some r ∧ n.rootId.isSome := by
  obtain ⟨n, hn⟩ := hs.handles.live hp
  have hok := hs.statuses.node hn
  cases hroot : n.root with
  | none =>
      have hrefs := (hok.cleared hroot).2
      have hcount := hs.handles.counted hn
      have hpos : 0 < s.handleCount p := by
        have hle := Heap.le_sum hp fun _ q => if q = p then 1 else 0
        rw [if_pos rfl] at hle
        exact hle
      omega
  | some r => exact ⟨n, r, hn, hroot, by rw [hok.directory, hroot]; rfl⟩

structure Branched (s s' : MemoryStore D R) (data : D) (root : R) : Prop where
  data : s'.data = data
  root : s'.rootOf = Function.update s.rootOf s.history.next (some root)
  active : s'.activeId = Function.update s.activeId s.history.next (some s.nextSnapshotId)
  ids : s'.nextSnapshotId = s.nextSnapshotId + 1
  next : s'.history.next = s.history.next + 1

theorem branch_refused {L : DataLayer D R} {handle : Nat} {n : HistoryNode R}
    (hp : s.handles.read handle = some p) (hn : s.history.read p = some n)
    (hst : n.status ≠ .committed) : s.branch L handle = some s := by
  simp only [branch, hp, hn, Option.bind_eq_bind, Option.bind_some, hst, if_false]

theorem branch_trees {L : DataLayer D R} {handle : Nat} {n : HistoryNode R} {r root : R} {data : D}
    (hp : s.handles.read handle = some p) (hn : s.history.read p = some n)
    (hst : n.status = .committed) (hroot : n.root = some r) (hid : n.rootId.isSome)
    (hclone : L.cloneRoot s.data s.nextSnapshotId r = some (data, root)) :
    ∃ s', s.branch L handle = some s' ∧ Branched s s' data root := by
  have hlt := Heap.lt_next_of_read hn
  have hpne : p ≠ s.history.next := by omega
  have hnep : s.history.next ≠ p := by omega
  obtain ⟨id, hid⟩ := Option.isSome_iff_exists.mp hid
  simp only [branch, makeSnapshot, initTree, modifyNode, Heap.read_modify, Heap.read_alloc, hp, hn,
    hpne, hnep, if_true, if_false, Option.bind_eq_bind, Option.bind_some, Option.map_some,
    HistoryNode.addChild, HistoryNode.setRoot, hst, hroot, hid, guard, hclone, Option.pure_def,
    Option.some.injEq]
  refine ⟨_, rfl, rfl, ?_, ?_, rfl, rfl⟩
  · funext q
    by_cases hq : q = s.history.next
    · subst hq
      simp [rootOf, Heap.read_modify, Heap.read_alloc, hnep, HistoryNode.ref, HistoryNode.setRoot]
    · rw [Function.update_of_ne hq]
      by_cases hqp : q = p
      · subst hqp
        simp [rootOf, Heap.read_modify, Heap.read_alloc, hpne, hn, hroot, HistoryNode.addChild]
      · simp [rootOf, Heap.read_modify, Heap.read_alloc, hq, hqp]
  · funext q
    by_cases hq : q = s.history.next
    · subst hq
      simp [activeId, Heap.read_modify, Heap.read_alloc, hnep, HistoryNode.ref, HistoryNode.setRoot]
    · rw [Function.update_of_ne hq]
      by_cases hqp : q = p
      · subst hqp
        simp [activeId, Heap.read_modify, Heap.read_alloc, hpne, hn, hst, HistoryNode.addChild]
      · simp [activeId, Heap.read_modify, Heap.read_alloc, hq, hqp]

structure Dropped (s s' : MemoryStore D R) (p : Nat) (data : D) : Prop where
  data : s'.data = data
  root : s'.rootOf = Function.update s.rootOf p none
  active : ∀ q id, s'.activeId q = some id → s.activeId q = some id
  ids : s'.nextSnapshotId = s.nextSnapshotId
  next : s'.history.next = s.history.next

theorem Dropped.of_sameTrees {data : D} (h : SameTrees s s') (h' : Dropped s' s'' p data) :
    Dropped s s'' p data := by
  refine ⟨h'.data, ?_, fun q id hid => h.active q id (h'.active q id hid), h'.ids.trans h.ids,
    h'.next.trans h.next⟩
  rw [h'.root, show s'.rootOf = s.rootOf from funext h.root]

theorem Dropped.trans_sameTrees {data : D} (h : Dropped s s' p data) (h' : SameTrees s' s'') :
    Dropped s s'' p data := by
  refine ⟨h'.data.trans h.data, ?_, fun q id hid => h.active q id (h'.active q id hid),
    h'.ids.trans h.ids, h'.next.trans h.next⟩
  rw [show s''.rootOf = s'.rootOf from funext h'.root, h.root]

theorem doDrop_trees {L : DataLayer D R} {n : HistoryNode R} {r : R} {data : D}
    (hn : s.history.read p = some n) (hroot : n.root = some r)
    (hdelete : L.deleteTree s.data r = some data) :
    ∃ s', doDrop L s p = some s' ∧ s'.history.read p = some (n.setRoot none none) ∧
      s'.history = s.history.modify p (.setRoot none none) ∧ Dropped s s' p data := by
  simp only [doDrop, hn, hroot, hdelete, Option.bind_eq_bind, Option.bind_some, Option.some.injEq]
  have hread := Heap.read_modify s.history p
  refine ⟨_, rfl, ?_, rfl, rfl, ?_, ?_, rfl, rfl⟩
  · simp [modifyNode, hn]
  · funext q
    by_cases hq : q = p
    · subst hq
      simp [rootOf, modifyNode, hn, HistoryNode.setRoot]
    · simp [rootOf, modifyNode, Heap.read_modify, hq]
  · intro q id hid
    by_cases hq : q = p
    · subst hq
      simpa [activeId, modifyNode, hn, HistoryNode.setRoot] using hid
    · simpa [activeId, modifyNode, Heap.read_modify, hq] using hid

/-- A node without data and children is forgotten. -/
theorem forgetSnapshot_trees {n m : HistoryNode R} (hn : s.history.read p = some n)
    (hroot : n.root = none) (hchildren : n.children = []) (hparent : n.parent = some q)
    (hm : s.history.read q = some m) :
    ∃ s', s.forgetSnapshot p = some s' ∧ SameTrees s s' := by
  have hrun : ∃ s', s.forgetSnapshot p = some s' ∧ s'.data = s.data := by
    simp only [forgetSnapshot, removeFromParent, hn, hparent, hm, Option.bind_eq_bind,
      Option.bind_some, Option.some.injEq]
    exact ⟨_, rfl, rfl⟩
  obtain ⟨s', hrun, hdata⟩ := hrun
  obtain ⟨hspliced, -, -⟩ := forgetSnapshot_spliced hn hparent hchildren hrun
  exact ⟨s', hrun, hspliced.sameTrees hdata (by rw [rootOf, hn]; exact hroot)⟩

def closed (s : MemoryStore D R) (handle p : Nat) : MemoryStore D R :=
  { s.modifyNode p .unref with handles := s.handles.free handle }

theorem sameTrees_closed (s : MemoryStore D R) (handle p : Nat) :
    SameTrees s (s.closed handle p) :=
  (SameTrees.modifyNode s p (f := .unref) (fun _ => rfl) (fun _ => rfl) fun _ h => h).trans
    (.of_history_eq rfl rfl rfl)

theorem read_closed {handle : Nat} {n : HistoryNode R} (hn : s.history.read q = some n) :
    (s.closed handle p).history.read q = some (if q = p then n.unref else n) :=
  read_modifyNode_of_read p .unref hn

def inactive (s : MemoryStore D R) : MemoryStore D R :=
  { s with activeSnapshots := s.activeSnapshots - 1 }

theorem release_eq {L : DataLayer D R} {handle : Nat} {n : HistoryNode R}
    (hp : s.handles.read handle = some p) (hn : s.history.read p = some n) :
    s.release L handle
      = if n.references = 1 then
          if n.status = .active then
            (doDrop L (s.closed handle p).inactive p).bind fun t => t.forgetSnapshot p
          else if n.status = .dropped then
            doDrop L (s.closed handle p) p
          else
            some (s.closed handle p)
        else
          some (s.closed handle p) := by
  simp only [release, hp, hn, Option.bind_eq_bind, Option.bind_some]
  rfl

theorem release_trees {L : DataLayer D R} (hs : Inv s) {handle : Nat}
    (hp : s.handles.read handle = some p) {n : HistoryNode R} {r : R}
    (hn : s.history.read p = some n) (hroot : n.root = some r) {data : D}
    (hdelete : L.deleteTree s.data r = some data) :
    ∃ s', s.release L handle = some s' ∧ (SameTrees s s' ∨ Dropped s s' p data) := by
  have hclosed := sameTrees_closed s handle p
  have hread : (s.closed handle p).history.read p = some n.unref := by
    rw [read_closed hn, if_pos rfl]
  rw [release_eq hp hn]
  by_cases hlast : n.references = 1
  · rw [if_pos hlast]
    by_cases hactive : n.status = .active
    · rw [if_pos hactive]
      -- The node goes with the data.
      have hok := hs.statuses.node hn
      have hchildren : n.children = [] := by
        by_contra hne
        rcases hok.branched hne with hst | hst <;> rw [hactive] at hst <;> cases hst
      obtain ⟨q, hq⟩ := hok.exists_parent (by rw [hactive]; decide)
      obtain ⟨hlt, m, hm, -⟩ := hs.shape.parentLive hn hq
      have hinactive : SameTrees s (s.closed handle p).inactive :=
        hclosed.trans (.of_history_eq rfl rfl rfl)
      obtain ⟨t, ht, hreadp, hhistory, hdropped⟩ :=
        doDrop_trees (L := L) (s := (s.closed handle p).inactive) hread hroot hdelete
      have hreadq : t.history.read q = some m := by
        rw [hhistory, Heap.read_modify_of_ne (by omega)]
        change (s.closed handle p).history.read q = some m
        rw [read_closed hm, if_neg (by omega)]
      obtain ⟨s', hs', hsame⟩ := forgetSnapshot_trees hreadp rfl hchildren hq hreadq
      refine ⟨s', ?_, Or.inr ((Dropped.of_sameTrees hinactive hdropped).trans_sameTrees hsame)⟩
      rw [ht]
      exact hs'
    · rw [if_neg hactive]
      by_cases hdropped : n.status = .dropped
      · rw [if_pos hdropped]
        obtain ⟨t, ht, -, -, hd⟩ := doDrop_trees (L := L) (s := s.closed handle p) hread hroot hdelete
        exact ⟨t, ht, Or.inr (Dropped.of_sameTrees hclosed hd)⟩
      · rw [if_neg hdropped]
        exact ⟨_, rfl, Or.inl hclosed⟩
  · rw [if_neg hlast]
    exact ⟨_, rfl, Or.inl hclosed⟩

end Memoria.MemoryStore

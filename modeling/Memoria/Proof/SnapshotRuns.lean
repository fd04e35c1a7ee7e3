import Memoria.Lib.Run
import Memoria.Proof.SnapshotHistory
import Memoria.Proof.SnapshotUpdates

/-!
# Runs of the store

The whole in-memory store stands for a family of maps from block ids to data, one for every
snapshot. A branch copies the map of its parent, a call on a block changes the map of one active
snapshot, and every other call leaves all maps alone, whatever nodes and blocks the snapshots share.
-/

namespace Memoria

open Lib PersistentTree MemoryStore

namespace BlockOp

def apply (map : Nat → Option Nat) : BlockOp → Nat → Option Nat
  | .createBlock id data => Function.update map id (some data)
  | .updateBlock id write => Function.update map id ((map id).map write)
  | .resizeBlock id resize => Function.update map id ((map id).map resize)
  | .cloneBlock id newId =>
      match map id with
      | some data => Function.update map newId (some data)
      | none => map
  | .removeBlock id => Function.update map id none

def Room (layout : NodeLayout) (t : PersistentTree Nat Nat) (id : Nat) : Prop :=
  t.find layout id = some none → ∀ iter, t.locate layout id = some iter → HasRoom layout t iter.path

def Present (layout : NodeLayout) (t : PersistentTree Nat Nat) (id : Nat) : Prop :=
  ∃ value, t.find layout id = some (some value)

/-- Blocks are there that are updated, resized, cloned or removed, new blocks do not make the tree
outgrow a path, and a removal stays clear of the merges that go wrong. -/
def Ok (layout : NodeLayout) (t : PersistentTree Nat Nat) : BlockOp → Prop
  | .createBlock id _ => Room layout t id
  | .updateBlock id _ => Present layout t id
  | .resizeBlock id _ => Present layout t id
  | .cloneBlock id newId => Present layout t id ∧ Room layout t newId
  | .removeBlock id => Present layout t id ∧
      ∀ iter, t.locate layout id = some iter → RemoveOk layout t iter

instance (layout : NodeLayout) (t : PersistentTree Nat Nat) (id : Nat) :
    Decidable (Room layout t id) :=
  inferInstanceAs (Decidable (t.find layout id = some none →
    ∀ iter ∈ t.locate layout id, HasRoom layout t iter.path))

instance (layout : NodeLayout) (t : PersistentTree Nat Nat) (id : Nat) :
    Decidable (Present layout t id) :=
  decidable_of_iff ((t.find layout id).join.isSome = true) (by
    rw [Option.isSome_iff_exists]
    exact exists_congr fun value => Option.join_eq_some_iff)

instance (layout : NodeLayout) (t : PersistentTree Nat Nat) : ∀ op, Decidable (Ok layout t op)
  | .createBlock id _ => inferInstanceAs (Decidable (Room layout t id))
  | .updateBlock id _ => inferInstanceAs (Decidable (Present layout t id))
  | .resizeBlock id _ => inferInstanceAs (Decidable (Present layout t id))
  | .cloneBlock id newId =>
      inferInstanceAs (Decidable (Present layout t id ∧ Room layout t newId))
  | .removeBlock id => inferInstanceAs (Decidable (Present layout t id ∧
      ∀ iter ∈ t.locate layout id, RemoveOk layout t iter))

end BlockOp

abbrev Maps : Type := Nat → Nat → Option Nat

namespace MemoryStore

def activeAt (s : MemoryStore TreeData Nat) (handle : Nat) : Option Nat := do
  let p ← s.handles.read handle
  let node ← s.history.read p
  if node.status = .active then some p else none

def mapsAfter (s : MemoryStore TreeData Nat) (maps : Maps) : StoreOp → Maps
  | .call (.branch handle) =>
      match s.handles.read handle with
      | some p => Function.update maps s.history.next (maps p)
      | none => maps
  | .call _ => maps
  | .block handle op =>
      match s.activeAt handle with
      | some p => Function.update maps p (op.apply (maps p))
      | none => maps

end MemoryStore

structure StoreSession where
  store : MemoryStore TreeData Nat
  maps : Maps

namespace StoreSession

def create : StoreSession :=
  ⟨MemoryStore.create TreeData.layer, fun _ => Function.update (fun _ => none) 0 (some 0)⟩

def step (layout : NodeLayout) (s : StoreSession) (op : StoreOp) : Option StoreSession := do
  let store ← s.store.storeStep layout op
  some ⟨store, s.store.mapsAfter s.maps op⟩

def CallOk (layout : NodeLayout) (s : StoreSession) : StoreOp → Prop
  | .call _ => True
  | .block handle op => ∀ p t, s.store.activeAt handle = some p → s.store.treeAt p = some t →
      op.Ok layout t

instance (layout : NodeLayout) (s : StoreSession) : ∀ op, Decidable (s.CallOk layout op)
  | .call _ => inferInstanceAs (Decidable True)
  | .block handle op => decidable_of_iff
      (∀ p ∈ s.store.activeAt handle, ∀ t ∈ s.store.treeAt p, op.Ok layout t)
      ⟨fun h p t hp ht => h p hp t ht, fun h p hp t ht => h p t hp ht⟩

def Shows (layout : NodeLayout) (s : StoreSession) : Prop :=
  ∀ handle p, s.store.handles.read handle = some p →
    ∀ id, s.store.getBlock layout handle id = some (s.maps p id)

def dataHandle : StoreOp → Option Nat
  | .call (.branch handle) => some handle
  | .call (.release handle) => some handle
  | .call _ => none
  | .block handle _ => some handle

def Answers (layout : NodeLayout) (s : StoreSession) (op : StoreOp) : Prop :=
  ∀ handle p, dataHandle op = some handle → s.store.handles.read handle = some p →
    (s.step layout op).isSome

end StoreSession

namespace MemoryStore

def heaps (s : MemoryStore TreeData Nat) : PersistentTree Nat Nat := s.data.tree 0 0

def forest (s : MemoryStore TreeData Nat) (values : Nat → Nat → Option Value) : Forest Nat :=
  { root := s.rootOf, values := values, active := s.activeId }

structure Trees (layout : NodeLayout) (s : MemoryStore TreeData Nat)
    (values : Nat → Nat → Option Value) : Prop where
  planted : Planted layout s.heaps (s.forest values)
  isolated : (s.forest values).Private
  made : ∀ p k v, (s.rootOf p).isSome → values p k = some v → v.snapshotId < s.nextSnapshotId

end MemoryStore

namespace StoreSession

structure Sound (layout : NodeLayout) (s : StoreSession) : Prop where
  inv : Inv s.store
  trees : ∃ values, Trees layout s.store values ∧
    ∀ p, (s.store.rootOf p).isSome → shown s.store.heaps (values p) = s.maps p

structure Follows (s s' : StoreSession) : Prop where
  next : s.store.history.next ≤ s'.store.history.next
  active : ∀ q id, q < s.store.history.next → s'.store.activeId q = some id →
    s.store.activeId q = some id
  maps : ∀ q, q < s.store.history.next → s.store.activeId q = none → s'.maps q = s.maps q

theorem Follows.refl (s : StoreSession) : Follows s s :=
  ⟨le_rfl, fun _ _ _ h => h, fun _ _ _ => rfl⟩

end StoreSession

section Steps

variable {layout : NodeLayout} {s s' : MemoryStore TreeData Nat} {values : Nat → Nat → Option Value}
  {p q : Nat}

/-- The tree of a snapshot among all others. -/
theorem MemoryStore.Trees.planted_at (h : Trees layout s values) (id root : Nat) :
    Planted layout (s.data.tree id root) (s.forest values) :=
  h.planted.congr rfl fun _ => rfl

theorem treeAt_eq {n : HistoryNode Nat} {r : Nat} (hn : s.history.read p = some n)
    (hroot : n.root = some r) : s.treeAt p = some (s.data.tree n.snapshotId r) := by
  simp only [treeAt, hn, hroot, Option.bind_eq_bind, Option.bind_some]

theorem rootOf_eq {n : HistoryNode Nat} (hn : s.history.read p = some n) : s.rootOf p = n.root := by
  rw [rootOf, hn, Option.bind_some]

theorem activeId_eq {n : HistoryNode Nat} (hn : s.history.read p = some n)
    (hst : n.status = .active) : s.activeId p = some n.snapshotId := by
  rw [activeId, hn, Option.bind_some, if_pos hst]

theorem activeAt_eq_some_iff {handle : Nat} :
    s.activeAt handle = some p ↔ s.handles.read handle = some p ∧
      ∃ n, s.history.read p = some n ∧ n.status = .active := by
  simp only [activeAt, Option.bind_eq_bind, Option.bind_eq_some_iff,
    Option.ite_none_right_eq_some, Option.some.injEq]
  constructor
  · rintro ⟨q, hq, n, hn, hst, rfl⟩
    exact ⟨hq, n, hn, hst⟩
  · rintro ⟨hp, n, hn, hst⟩
    exact ⟨p, hp, n, hn, hst, rfl⟩

/-- A call on a block, in the tree of its snapshot. -/
theorem BlockOp.run_spec {t : PersistentTree Nat Nat} {f : Forest Nat} {op : BlockOp}
    (h : Planted layout t f) (hprivate : f.Private) (hp : f.root p = some t.root)
    (hactive : f.active p = some t.snapshotId) (hok : op.Ok layout t) :
    ∃ t' map, op.run layout t = some t' ∧
      Changed layout t f p t.snapshotId t' map (op.apply (shown t (f.values p))) := by
  obtain ⟨tree, hwf, hmap⟩ := h.wellFormed hp rfl
  have hfind : ∀ id, t.find layout id = some (f.values p id) := by
    intro id
    rw [find_eq_toMap hwf, hmap]
  have hpresent : ∀ id, Present layout t id → ∃ v data, f.values p id = some v ∧
      shown t (f.values p) id = some data ∧ t.getBlock layout id = some (some data) := by
    rintro id ⟨v, hv⟩
    have hvalue : f.values p id = some v := Option.some.inj ((hfind id).symm.trans hv)
    obtain ⟨block, hblock, -⟩ := h.exists_block hp hvalue
    have hshown : shown t (f.values p) id = some block.data := by
      rw [shown, hvalue, Option.bind_some, hblock, Option.map_some]
    exact ⟨v, block.data, hvalue, hshown, by rw [h.getBlock hp rfl, hshown]⟩
  cases op with
  | createBlock id data =>
      obtain ⟨t', hrun, hchanged⟩ := h.setNewBlock hprivate hp id data fun hnone =>
        hok (by rw [hfind, hnone])
      exact ⟨t', _, hrun, hchanged⟩
  | updateBlock id write =>
      obtain ⟨v, -, hv, -⟩ := hpresent id hok
      exact h.changeBlock hprivate hp hactive hv write
  | resizeBlock id resize =>
      obtain ⟨v, data, hv, hshown, hget⟩ := hpresent id hok
      obtain ⟨t', hrun, hchanged⟩ := h.setNewBlock hprivate hp id (resize data) fun hnone => by
        rw [hv] at hnone
        cases hnone
      rw [apply, hshown, Option.map_some]
      refine ⟨t', _, ?_, hchanged⟩
      simp only [run, PersistentTree.resizeBlock, hget, Option.bind_eq_bind, Option.bind_some]
      exact hrun
  | cloneBlock id newId =>
      obtain ⟨hid, hroom⟩ := hok
      obtain ⟨v, data, hv, hshown, hget⟩ := hpresent id hid
      obtain ⟨t', hrun, hchanged⟩ := h.setNewBlock hprivate hp newId data fun hnone =>
        hroom (by rw [hfind, hnone])
      simp only [apply, hshown]
      refine ⟨t', _, ?_, hchanged⟩
      simp only [run, PersistentTree.cloneBlock, hget, Option.bind_eq_bind, Option.bind_some]
      exact hrun
  | removeBlock id =>
      obtain ⟨hid, hremove⟩ := hok
      obtain ⟨v, -, hv, -⟩ := hpresent id hid
      obtain ⟨t', hrun, hchanged⟩ := h.remove hprivate hp hv hremove
      refine ⟨t', _, ?_, hchanged⟩
      simp only [run, hrun, Option.map_some]

theorem rootOf_putTree {n : HistoryNode Nat} (hn : s.history.read p = some n)
    (t : PersistentTree Nat Nat) :
    (s.putTree p t).rootOf = Function.update s.rootOf p (some t.root) := by
  funext q
  by_cases hq : q = p
  · subst hq
    simp [rootOf, putTree, modifyNode, hn]
  · simp [rootOf, putTree, modifyNode, Heap.read_modify, hq]

theorem activeId_putTree (s : MemoryStore TreeData Nat) (p : Nat) (t : PersistentTree Nat Nat) :
    (s.putTree p t).activeId = s.activeId := by
  funext q
  simp only [activeId, putTree, modifyNode, Heap.read_modify]
  split
  · cases s.history.read q <;> rfl
  · rfl

theorem inv_putTree (hs : Inv s) {n : HistoryNode Nat} (hn : s.history.read p = some n)
    (hid : n.rootId.isSome) (t : PersistentTree Nat Nat) : Inv (s.putTree p t) := by
  refine (hs.modifyNode p (f := fun node => { node with root := some t.root }) (fun _ => rfl)
    (fun _ => rfl) (fun _ => rfl) (fun _ => rfl) ?_ fun _ _ h => h).of_counter s.activeSnapshots _
  intro m hm
  have hmn : m = n := Option.some.inj (hm.symm.trans hn)
  subst hmn
  have hok := hs.statuses.node hn
  refine ⟨?_, hid, hok.branched, hok.rootCommitted⟩
  intro hnone
  cases hnone

theorem StoreSession.Sound.block {s : StoreSession} (h : s.Sound layout) {handle : Nat}
    {op : BlockOp} (hok : s.CallOk layout (.block handle op)) (hp : s.store.handles.read handle = some p) :
    ∃ s', s.step layout (.block handle op) = some s' ∧ s'.Sound layout ∧ s.Follows s' := by
  obtain ⟨n, r, hn, hroot, hid⟩ := h.inv.exists_of_handle hp
  obtain ⟨values, htrees, hshows⟩ := h.trees
  by_cases hst : n.status = .active
  · have hactive : s.store.activeAt handle = some p := activeAt_eq_some_iff.mpr ⟨hp, n, hn, hst⟩
    have htree := treeAt_eq hn hroot
    have hrootOf : (s.store.forest values).root p = some r := (rootOf_eq hn).trans hroot
    obtain ⟨t', map, hrun, hchanged⟩ := BlockOp.run_spec (htrees.planted_at n.snapshotId r)
      htrees.isolated hrootOf (activeId_eq hn hst) (hok p _ hactive htree)
    have hforest : (s.store.putTree p t').forest (Function.update values p map)
        = (s.store.forest values).setTree p t'.root map := by
      simp only [forest, Forest.setTree, rootOf_putTree hn, activeId_putTree]
    refine ⟨⟨s.store.putTree p t', Function.update s.maps p (op.apply (s.maps p))⟩, ?_,
      ⟨inv_putTree h.inv hn hid t', Function.update values p map, ⟨?_, ?_, ?_⟩, ?_⟩,
      le_rfl, ?_, ?_⟩
    · simp only [StoreSession.step, storeStep, blockStep, hp, hn, hst, htree, hrun, mapsAfter, hactive,
        Option.bind_eq_bind, Option.bind_some, if_true]
    · rw [hforest]
      exact hchanged.planted.congr rfl fun _ => rfl
    · rw [hforest]
      exact hchanged.isolated
    · intro q k v hq hv
      rw [rootOf_putTree hn] at hq
      change v.snapshotId < s.store.nextSnapshotId
      have hlt := (h.inv.shape.registered hn).1
      by_cases hqp : q = p
      · rw [hqp, Function.update_self] at hv
        rcases hchanged.made k v hv with hold | hnew
        · exact htrees.made p k v (by rw [rootOf_eq hn, hroot]; rfl) hold
        · rw [hnew]
          exact hlt
      · rw [Function.update_of_ne hqp] at hq hv
        exact htrees.made q k v hq hv
    · intro q hq
      rw [rootOf_putTree hn] at hq
      change shown t' (Function.update values p map q)
        = Function.update s.maps p (op.apply (s.maps p)) q
      by_cases hqp : q = p
      · rw [hqp, Function.update_self, Function.update_self, hchanged.shows,
          ← hshows p (by rw [rootOf_eq hn, hroot]; rfl)]
        rfl
      · rw [Function.update_of_ne hqp] at hq ⊢
        rw [Function.update_of_ne hqp]
        exact (hchanged.others q hqp hq).trans (hshows q hq)
    · intro q id _ hq
      rwa [activeId_putTree] at hq
    · intro q _ hq
      have hqp : q ≠ p := by
        rintro rfl
        rw [activeId_eq hn hst] at hq
        cases hq
      exact Function.update_of_ne hqp ..
  · have hactive : s.store.activeAt handle = none := by
      rw [Option.eq_none_iff_forall_ne_some]
      intro q hq
      obtain ⟨hq, m, hm, hst'⟩ := activeAt_eq_some_iff.mp hq
      obtain rfl := Option.some.inj (hp.symm.trans hq)
      obtain rfl := Option.some.inj (hn.symm.trans hm)
      exact hst hst'
    refine ⟨s, ?_, h, .refl s⟩
    simp only [StoreSession.step, storeStep, blockStep, hp, hn, hst, mapsAfter, hactive,
      Option.bind_eq_bind, Option.bind_some, if_false]

theorem MemoryStore.Trees.sameTrees (h : Trees layout s values) (hsame : SameTrees s s') :
    Trees layout s' values := by
  have hroot : s'.rootOf = s.rootOf := funext hsame.root
  have hheaps : s'.heaps = s.heaps := congrArg (TreeData.tree · 0 0) hsame.data
  have hforest : s'.forest values = { s.forest values with active := s'.activeId } := by
    simp only [forest, hroot]
  refine ⟨?_, ?_, ?_⟩
  · rw [hheaps, hforest]
    exact ⟨h.planted.distinct, h.planted.balanced, h.planted.tree, h.planted.counted⟩
  · rw [hforest]
    intro p k v hp hactive
    exact h.isolated p k v hp (hsame.active p _ hactive)
  · intro p k v hp hv
    rw [hroot] at hp
    rw [hsame.ids]
    exact h.made p k v hp hv

theorem StoreSession.Sound.sameTrees {s : StoreSession} (h : s.Sound layout)
    {store : MemoryStore TreeData Nat} (hsame : SameTrees s.store store) (hinv : Inv store) :
    (⟨store, s.maps⟩ : StoreSession).Sound layout := by
  obtain ⟨values, htrees, hshows⟩ := h.trees
  refine ⟨hinv, values, htrees.sameTrees hsame, ?_⟩
  intro p hp
  have hheaps : store.heaps = s.store.heaps := congrArg (TreeData.tree · 0 0) hsame.data
  rw [hsame.root] at hp
  rw [hheaps]
  exact hshows p hp

theorem StoreSession.Sound.branch {s : StoreSession} (h : s.Sound layout) {handle : Nat}
    (hp : s.store.handles.read handle = some p) :
    ∃ s', s.step layout (.call (.branch handle)) = some s' ∧ s'.Sound layout ∧ s.Follows s' := by
  obtain ⟨n, r, hn, hroot, hid⟩ := h.inv.exists_of_handle hp
  obtain ⟨values, htrees, hshows⟩ := h.trees
  have hnext : s.store.rootOf s.store.history.next = none := by rw [rootOf, Heap.read_next]; rfl
  by_cases hst : n.status = .committed
  · have hrootOf : s.store.rootOf p = some r := (rootOf_eq hn).trans hroot
    obtain ⟨t₁, t₂, hclone, href, hplanted, hkept⟩ :=
      (htrees.planted_at s.store.nextSnapshotId r).cloneRoot (p := p) (r := r)
        (q := s.store.history.next) hrootOf hnext
    have hrun : TreeData.layer.cloneRoot s.store.data s.store.nextSnapshotId r
        = some (.ofTree t₂, s.store.data.nodes.next) := by
      change TreeData.cloneRoot s.store.data s.store.nextSnapshotId r = _
      simp only [TreeData.cloneRoot, hclone, Option.bind_eq_bind, Option.bind_some]
      rw [show t₁.refNode s.store.data.nodes.next = some t₂ from href]
      rfl
    obtain ⟨store, hbranch, hbranched⟩ := branch_trees hp hn hst hroot hid hrun
    have hheaps : store.heaps = TreeData.tree (.ofTree t₂) 0 0 :=
      congrArg (TreeData.tree · 0 0) hbranched.data
    have hplanted₂ : Planted layout store.heaps
        ((s.store.forest values).setTree s.store.history.next s.store.data.nodes.next (values p)) := by
      rw [hheaps]
      exact hplanted.congr rfl fun _ => rfl
    -- The snapshot that is branched from is not active.
    have hinactive : s.store.activeId p = none := by
      rw [activeId, hn, Option.bind_some, if_neg (by rw [hst]; decide)]
    have hpsome : (s.store.rootOf p).isSome := by rw [hrootOf]; rfl
    -- Every value is one of the old forest; the new snapshot has those of its parent.
    let origin : Nat → Nat := fun q => if q = s.store.history.next then p else q
    have horigin : ∀ q k v, (store.rootOf q).isSome →
        Function.update values s.store.history.next (values p) q k = some v →
        (s.store.rootOf (origin q)).isSome ∧ values (origin q) k = some v := by
      intro q k v hq hv
      by_cases hqn : q = s.store.history.next
      · rw [hqn, Function.update_self] at hv
        simp only [origin, hqn, if_true]
        exact ⟨hpsome, hv⟩
      · rw [hbranched.root, Function.update_of_ne hqn] at hq
        rw [Function.update_of_ne hqn] at hv
        simp only [origin, hqn, if_false]
        exact ⟨hq, hv⟩
    refine ⟨⟨store, Function.update s.maps s.store.history.next (s.maps p)⟩, ?_,
      ⟨(branch_spec h.inv hbranch).1, Function.update values s.store.history.next (values p),
        ⟨?_, ?_, ?_⟩, ?_⟩, ?_, ?_, ?_⟩
    · have hstep : s.store.storeStep layout (.call (.branch handle)) = some store := hbranch
      simp only [StoreSession.step, hstep, mapsAfter, hp, Option.bind_eq_bind, Option.bind_some]
    · have hforest : store.forest (Function.update values s.store.history.next (values p))
          = { (s.store.forest values).setTree s.store.history.next s.store.data.nodes.next
              (values p) with active := store.activeId } := by
        simp only [forest, Forest.setTree, hbranched.root]
      rw [hforest]
      exact ⟨hplanted₂.distinct, hplanted₂.balanced, hplanted₂.tree, hplanted₂.counted⟩
    · intro q k v hq hactive hv q' k' v' hq' hv' hptr
      obtain ⟨hroot₁, hv₁⟩ := horigin q k v hq hv
      obtain ⟨hroot₂, hv₂⟩ := horigin q' k' v' hq' hv'
      change store.activeId q = some v.snapshotId at hactive
      rw [hbranched.active] at hactive
      have hqn : q ≠ s.store.history.next := by
        rintro rfl
        rw [Function.update_self] at hactive
        have hlt := htrees.made _ k v hroot₁ hv₁
        rw [← Option.some.inj hactive] at hlt
        exact lt_irrefl _ hlt
      rw [Function.update_of_ne hqn] at hactive
      simp only [origin, hqn, if_false] at hroot₁ hv₁
      obtain ⟨heq, hk⟩ := htrees.isolated q k v hroot₁ hactive hv₁ _ k' v' hroot₂ hv₂ hptr
      refine ⟨?_, hk⟩
      by_cases hqn' : q' = s.store.history.next
      · simp only [origin, hqn', if_true] at heq
        rw [← heq, hinactive] at hactive
        cases hactive
      · simpa only [origin, hqn', if_false] using heq
    · intro q k v hq hv
      obtain ⟨hroot₁, hv₁⟩ := horigin q k v hq hv
      have hlt := htrees.made _ k v hroot₁ hv₁
      rw [hbranched.ids]
      omega
    · intro q hq
      have hdata : ∀ a, (s.store.rootOf a).isSome → shown store.heaps (values a) = s.maps a := by
        intro a ha
        have hane : a ≠ s.store.history.next := by
          rintro rfl
          rw [hnext] at ha
          cases ha
        have hkept' : shown t₂ (values a) = shown s.store.heaps (values a) := by
          have hsame := hkept.shown_eq hplanted (setTree_root_of_ne hane ha)
          rwa [setTree_values_of_ne hane] at hsame
        rw [hheaps, ← hshows a ha, ← hkept']
        rfl
      change shown store.heaps (Function.update values s.store.history.next (values p) q)
        = Function.update s.maps s.store.history.next (s.maps p) q
      by_cases hqn : q = s.store.history.next
      · rw [hqn, Function.update_self, Function.update_self]
        exact hdata p hpsome
      · rw [Function.update_of_ne hqn, Function.update_of_ne hqn]
        rw [hbranched.root, Function.update_of_ne hqn] at hq
        exact hdata q hq
    · rw [hbranched.next]
      exact Nat.le_succ _
    · intro q id hlt hq
      rwa [hbranched.active, Function.update_of_ne (Nat.ne_of_lt hlt)] at hq
    · intro q hlt _
      exact Function.update_of_ne (Nat.ne_of_lt hlt) ..
  · have hrefused := branch_refused (L := TreeData.layer) hp hn hst
    refine ⟨⟨s.store, Function.update s.maps s.store.history.next (s.maps p)⟩, ?_,
      ⟨h.inv, values, htrees, ?_⟩, le_rfl, fun _ _ _ hq => hq, ?_⟩
    · have hstep : s.store.storeStep layout (.call (.branch handle)) = some s.store := hrefused
      simp only [StoreSession.step, hstep, mapsAfter, hp, Option.bind_eq_bind, Option.bind_some]
    · intro q hq
      have hqn : q ≠ s.store.history.next := by
        rintro rfl
        rw [hnext] at hq
        cases hq
      change shown s.store.heaps (values q) = Function.update s.maps s.store.history.next (s.maps p) q
      rw [Function.update_of_ne hqn]
      exact hshows q hq
    · intro q hlt _
      exact Function.update_of_ne (Nat.ne_of_lt hlt) ..

theorem StoreSession.Sound.release {s : StoreSession} (h : s.Sound layout) {handle : Nat}
    (hp : s.store.handles.read handle = some p) :
    ∃ s', s.step layout (.call (.release handle)) = some s' ∧ s'.Sound layout ∧ s.Follows s' := by
  obtain ⟨n, r, hn, hroot, hid⟩ := h.inv.exists_of_handle hp
  obtain ⟨values, htrees, hshows⟩ := h.trees
  have hrootOf : s.store.rootOf p = some r := (rootOf_eq hn).trans hroot
  obtain ⟨t', hdelete, hplanted, hkept⟩ :=
    (htrees.planted_at 0 r).deleteTree (p := p) (r := r) hrootOf rfl
  have hrun : TreeData.layer.deleteTree s.store.data r = some (.ofTree t') := by
    change ((s.store.data.tree 0 r).deleteTree).map TreeData.ofTree = _
    rw [hdelete]
    rfl
  obtain ⟨store, hrelease, hcases⟩ := release_trees h.inv hp hn hroot hrun
  have hinv := (release_spec h.inv hrelease).1
  have hstep : s.step layout (.call (.release handle)) = some ⟨store, s.maps⟩ := by
    have hstore : s.store.storeStep layout (.call (.release handle)) = some store := hrelease
    simp only [StoreSession.step, hstore, mapsAfter, Option.bind_eq_bind, Option.bind_some]
  have hfollows : s.Follows ⟨store, s.maps⟩ := by
    rcases hcases with hsame | hdropped
    · exact ⟨hsame.next.ge, fun q id _ hq => hsame.active q id hq, fun _ _ _ => rfl⟩
    · exact ⟨hdropped.next.ge, fun q id _ hq => hdropped.active q id hq, fun _ _ _ => rfl⟩
  refine ⟨⟨store, s.maps⟩, hstep, ?_, hfollows⟩
  rcases hcases with hsame | hdropped
  · exact h.sameTrees hsame hinv
  · have hheaps : store.heaps = TreeData.tree (.ofTree t') 0 0 :=
      congrArg (TreeData.tree · 0 0) hdropped.data
    have hforest : store.forest values
        = { (s.store.forest values).dropTree p with active := store.activeId } := by
      simp only [forest, Forest.dropTree, hdropped.root]
    have hback : ∀ q, (store.rootOf q).isSome → (s.store.rootOf q).isSome := by
      intro q hq
      rw [hdropped.root] at hq
      by_cases hqp : q = p
      · rw [hqp, Function.update_self] at hq
        cases hq
      · rwa [Function.update_of_ne hqp] at hq
    refine ⟨hinv, values, ⟨?_, ?_, ?_⟩, ?_⟩
    · rw [hheaps, hforest]
      have hplanted' : Planted layout (TreeData.tree (.ofTree t') 0 0) _ :=
        hplanted.congr rfl fun _ => rfl
      exact ⟨hplanted'.distinct, hplanted'.balanced, hplanted'.tree, hplanted'.counted⟩
    · intro q k v hq hactive hv q' k' v' hq' hv'
      exact htrees.isolated q k v (hback q hq) (hdropped.active q _ hactive) hv q' k' v'
        (hback q' hq') hv'
    · intro q k v hq hv
      rw [hdropped.ids]
      exact htrees.made q k v (hback q hq) hv
    · intro q hq
      have hq' : (((s.store.forest values).dropTree p).root q).isSome := by
        rw [hdropped.root] at hq
        exact hq
      rw [hheaps, ← hshows q (hback q hq)]
      exact hkept.shown_eq hplanted hq'

end Steps

namespace StoreSession

variable {layout : NodeLayout} {s : StoreSession}

/-- Every call keeps the trees of all snapshots in order, and changes the map of an active snapshot
only. -/
theorem Sound.step {s' : StoreSession} {op : StoreOp} (h : s.Sound layout)
    (hok : s.CallOk layout op) (hstep : s.step layout op = some s') :
    s'.Sound layout ∧ s.Follows s' := by
  cases op with
  | block handle op =>
      have hlive : ∃ p, s.store.handles.read handle = some p := by
        simp only [StoreSession.step, storeStep, blockStep, Option.bind_eq_bind,
          Option.bind_eq_some_iff] at hstep
        obtain ⟨-, ⟨p, hp, -⟩, -⟩ := hstep
        exact ⟨p, hp⟩
      obtain ⟨p, hp⟩ := hlive
      obtain ⟨s'', hrun, hs''⟩ := h.block hok hp
      obtain rfl := Option.some.inj (hrun.symm.trans hstep)
      exact hs''
  | call op =>
      obtain ⟨store, hrun, heq⟩ := Option.bind_eq_some_iff.mp hstep
      have hother : LeavesData op → s.store.mapsAfter s.maps (.call op) = s.maps →
          s'.Sound layout ∧ s.Follows s' := by
        intro hleaves hmaps
        obtain rfl := Option.some.inj heq
        rw [hmaps]
        have hsame := sameTrees_step h.inv hleaves hrun
        exact ⟨h.sameTrees hsame (step_spec h.inv hrun).1, hsame.next.ge,
          fun q id _ hq => hsame.active q id hq, fun _ _ _ => rfl⟩
      cases op with
      | branch handle =>
          have hlive : ∃ p, s.store.handles.read handle = some p := by
            change s.store.branch TreeData.layer handle = some store at hrun
            simp only [MemoryStore.branch, Option.bind_eq_bind, Option.bind_eq_some_iff] at hrun
            obtain ⟨p, hp, -⟩ := hrun
            exact ⟨p, hp⟩
          obtain ⟨p, hp⟩ := hlive
          obtain ⟨s'', hrun', hs''⟩ := h.branch hp
          obtain rfl := Option.some.inj (hrun'.symm.trans hstep)
          exact hs''
      | release handle =>
          have hlive : ∃ p, s.store.handles.read handle = some p := by
            change s.store.release TreeData.layer handle = some store at hrun
            simp only [MemoryStore.release, Option.bind_eq_bind, Option.bind_eq_some_iff] at hrun
            obtain ⟨p, hp, -⟩ := hrun
            exact ⟨p, hp⟩
          obtain ⟨p, hp⟩ := hlive
          obtain ⟨s'', hrun', hs''⟩ := h.release hp
          obtain rfl := Option.some.inj (hrun'.symm.trans hstep)
          exact hs''
      | _ => exact hother True.intro rfl

theorem Sound.shows (h : s.Sound layout) : s.Shows layout := by
  intro handle p hp id
  obtain ⟨n, r, hn, hroot, -⟩ := h.inv.exists_of_handle hp
  obtain ⟨values, htrees, hshows⟩ := h.trees
  have hrootOf : s.store.rootOf p = some r := (rootOf_eq hn).trans hroot
  have hget := (htrees.planted_at n.snapshotId r).getBlock (p := p) hrootOf rfl id
  simp only [MemoryStore.getBlock, hp, treeAt_eq hn hroot, Option.bind_eq_bind, Option.bind_some]
  rw [hget, ← hshows p (by rw [hrootOf]; rfl)]
  rfl

theorem Sound.answers (h : s.Sound layout) {op : StoreOp} (hok : s.CallOk layout op) :
    s.Answers layout op := by
  intro handle p hdata hp
  cases op with
  | block handle' op =>
      obtain rfl : handle' = handle := Option.some.inj hdata
      obtain ⟨s', hrun, -, -⟩ := h.block hok hp
      rw [hrun]
      rfl
  | call op =>
      cases op with
      | branch handle' =>
          obtain rfl : handle' = handle := Option.some.inj hdata
          obtain ⟨s', hrun, -⟩ := h.branch hp
          rw [hrun]
          rfl
      | release handle' =>
          obtain rfl : handle' = handle := Option.some.inj hdata
          obtain ⟨s', hrun, -⟩ := h.release hp
          rw [hrun]
          rfl
      | _ => cases hdata

theorem create_trees (layout : NodeLayout) :
    Trees layout create.store fun _ id => if id = 0 then some ⟨0, 0⟩ else none := by
  have hroot : ∀ p, create.store.rootOf p = if p = 0 then some 0 else none := by
    intro p
    simp only [create, MemoryStore.create, TreeData.layer, TreeData.create, rootOf, Heap.read_alloc,
      Heap.read_empty]
    change (if p = 0 then _ else none : Option (HistoryNode Nat)).bind _ = _
    split <;> rfl
  have hbody : ∀ p, create.store.heaps.bodyAt p
      = if p = 0 then some (.leaf [(0, ⟨0, 0⟩)]) else none := by
    intro p
    change Option.map Node.body ((Heap.alloc _ _).read p) = _
    rw [Heap.read_alloc, Heap.read_empty]
    change Option.map Node.body (if p = 0 then _ else none) = _
    split <;> rfl
  have hrefs : ∀ x, create.store.heaps.refsOf x
      = if x = .node 0 ∨ x = .block 0 then 1 else 0 := by
    intro x
    cases x with
    | node p =>
        change Option.elim ((Heap.alloc _ _).read p) (0 : Int) _ = _
        rw [Heap.read_alloc, Heap.read_empty]
        change Option.elim (if p = 0 then _ else none) (0 : Int) _ = _
        by_cases hp : p = 0
        · simp [hp]
        · simp [hp]
    | block b =>
        change Option.elim ((Heap.alloc _ _).read b) (0 : Int) _ = _
        rw [Heap.read_alloc, Heap.read_empty]
        change Option.elim (if b = 0 then _ else none) (0 : Int) _ = _
        by_cases hb : b = 0
        · simp [hb]
        · simp [hb]
  have hslots : ∀ x, create.store.heaps.slots x = if x = .block 0 then 1 else 0 := by
    intro x
    change (Heap.alloc Heap.empty _).sum _ = _
    rw [Heap.sum_alloc, Heap.sum_empty]
    change 0 + List.count x [Ptr.block 0] = _
    simp only [List.count_singleton, beq_iff_eq, Nat.zero_add, eq_comm (a := Ptr.block 0)]
  have hheld : ∀ x, held create.store.rootOf x = if x = .node 0 then 1 else 0 := by
    intro x
    cases x with
    | block b => simp [held]
    | node r =>
        by_cases hr : r = 0
        · rw [if_pos (by rw [hr]), hr]
          exact held_of_root (p := 0) (hroot 0)
        · rw [if_neg (by simpa using hr)]
          refine if_neg ?_
          rintro ⟨p, hp⟩
          rw [hroot] at hp
          split at hp
          · exact hr (Option.some.inj hp).symm
          · cases hp
  have hpresent : ∀ p r, create.store.rootOf p = some r → p = 0 ∧ r = 0 := by
    intro p r hp
    rw [hroot] at hp
    split at hp
    · rename_i heq
      exact ⟨heq, (Option.some.inj hp).symm⟩
    · cases hp
  refine ⟨⟨?_, ?_, ?_, ?_⟩, ?_, ?_⟩
  · intro p q r hp hq
    exact (hpresent p r hp).1.trans (hpresent q r hq).1.symm
  · intro x
    change _ = _ + ((held create.store.rootOf x : Nat) : Int)
    rw [hrefs, hslots, hheld]
    cases x with
    | node p => by_cases hp : p = 0 <;> simp [hp]
    | block b => by_cases hb : b = 0 <;> simp [hb]
  · intro p r hp
    obtain ⟨rfl, rfl⟩ := hpresent p r hp
    refine ⟨⟨0, .leaf 0 [(0, ⟨0, 0⟩)]⟩, ⟨rfl, ⟨?_, fun _ _ => trivial⟩, ?_, ?_, ⟨Or.inl rfl, ?_⟩,
      ⟨?_, fun _ _ => trivial⟩, Nat.zero_lt_succ _⟩, ?_⟩
    · exact (hbody 0).trans (if_pos rfl)
    · exact List.nodup_singleton 0
    · rw [hrefs, if_pos (Or.inl rfl)]
    · exact ⟨WithBot.bot_lt_coe 0, trivial⟩
    · have htwo := layout.two_le_nodeSize
      change 1 ≤ layout.nodeSize
      omega
    · funext id
      by_cases hid : id = 0
      · subst hid
        rfl
      · have hnone : toMap (flatRoot (⟨0, .leaf 0 [(0, ⟨0, 0⟩)]⟩ : Root Nat Value)) id = none := by
          change List.lookup id [((0 : Nat), (⟨0, 0⟩ : Value))] = none
          exact List.lookup_eq_none_iff.mpr fun p hp => by
            obtain rfl := List.mem_singleton.mp hp
            simpa using hid
        rw [hnone]
        exact (if_neg hid).symm
  · intro b block hb
    change (Heap.alloc Heap.empty _).read b = some block at hb
    rw [Heap.read_alloc, Heap.read_empty] at hb
    split at hb
    · obtain rfl := Option.some.inj hb
      exact Int.one_pos
    · cases hb
  · intro p k v hp hactive
    obtain ⟨r, hr⟩ := Option.isSome_iff_exists.mp hp
    obtain ⟨rfl, rfl⟩ := hpresent p r hr
    cases hactive
  · intro p k v hp hv
    change (if k = 0 then some (⟨0, 0⟩ : Value) else none) = some v at hv
    split at hv
    · obtain rfl := Option.some.inj hv
      exact Nat.zero_lt_one
    · cases hv

theorem create_sound (layout : NodeLayout) : create.Sound layout := by
  refine ⟨create_inv TreeData.layer, _, create_trees layout, ?_⟩
  intro p _
  funext id
  change shown create.store.heaps (fun id => if id = 0 then some ⟨0, 0⟩ else none) id
    = Function.update (fun _ => none) 0 (some 0) id
  by_cases hid : id = 0
  · subst hid
    rfl
  · rw [shown, if_neg hid, Function.update_of_ne hid, Option.bind_none]

theorem Sound.run {ops : List StoreOp} (h : s.Sound layout)
    (hrun : EveryStep (StoreSession.step layout) (CallOk layout) s ops) :
    EveryState (StoreSession.step layout) (Sound layout) s ops :=
  .of_invariant (fun _ _ _ hs hok hstep => (hs.step hok hstep).1) (fun _ hs => hs) h hrun

/-- In every run of the store, every snapshot shows its own map through all its handles, and no call
that reaches data fails. -/
theorem shows_maps_run {ops : List StoreOp}
    (hrun : EveryStep (step layout) (CallOk layout) create ops) :
    EveryState (step layout) (Shows layout) create ops ∧
      EveryStep (step layout) (Answers layout) create ops := by
  have hstep : ∀ s op s', Sound layout s → CallOk layout s op → step layout s op = some s' →
      Sound layout s' := fun _ _ _ hs hok hs' => (hs.step hok hs').1
  exact ⟨.of_invariant hstep (fun _ hs => hs.shows) (create_sound layout) hrun,
    .of_invariant hstep (fun _ _ hs hok => hs.answers hok) (create_sound layout) hrun⟩

/-- A branch of the first snapshot gets blocks and changes the one it shares with its parent, a
branch of that one is dropped, and the store is packed. -/
def firstBranch : List StoreOp :=
  [.call .openMaster, .call (.branch 0), .block 1 (.createBlock 5 7),
    .block 1 (.updateBlock 0 (· + 1)), .block 1 (.cloneBlock 5 6), .block 1 (.removeBlock 5),
    .call (.commit 1 true), .call (.branch 1), .block 2 (.resizeBlock 6 (· * 2)),
    .call (.commit 2 true), .call (.drop 2), .call (.release 2), .call .pack]

theorem firstBranch_ok : EveryStep (step .store) (CallOk .store) create firstBranch := by
  decide +kernel

theorem shows_maps_firstBranch :
    EveryState (step .store) (Shows .store) create firstBranch ∧
      EveryStep (step .store) (Answers .store) create firstBranch :=
  shows_maps_run firstBranch_ok

/-- A run from a sound state keeps the map of a snapshot that is not active. -/
theorem Sound.kept {ops : List StoreOp} {p : Nat} (h : s.Sound layout)
    (hp : p < s.store.history.next) (hactive : s.store.activeId p = none)
    (hrun : EveryStep (StoreSession.step layout) (CallOk layout) s ops) :
    EveryState (StoreSession.step layout)
      (fun s' => ∀ handle, s'.store.handles.read handle = some p →
        ∀ id, s'.store.getBlock layout handle id = some (s.maps p id)) s ops := by
  let I : StoreSession → Prop := fun s' => s'.Sound layout ∧ p < s'.store.history.next ∧
    s'.store.activeId p = none ∧ s'.maps p = s.maps p
  refine EveryState.of_invariant (I := I) ?_ ?_ ⟨h, hp, hactive, rfl⟩ hrun
  · rintro s₁ op s₂ ⟨hs₁, hp₁, hactive₁, hmaps₁⟩ hok hstep
    obtain ⟨hs₂, hfollows⟩ := hs₁.step hok hstep
    refine ⟨hs₂, lt_of_lt_of_le hp₁ hfollows.next, ?_, ?_⟩
    · rw [Option.eq_none_iff_forall_ne_some]
      intro id hid
      rw [hfollows.active p id hp₁ hid] at hactive₁
      cases hactive₁
    · rw [hfollows.maps p hp₁ hactive₁, hmaps₁]
  · rintro s₁ ⟨hs₁, -, -, hmaps₁⟩ handle hhandle id
    rw [hs₁.shows handle p hhandle, hmaps₁]

/-- Once a snapshot is not active any more, all its handles show what it was then, in every state
that the store comes to. -/
theorem inactive_kept_run {before after : List StoreOp} {p : Nat} {n : HistoryNode Nat}
    (hrun : EveryStep (step layout) (CallOk layout) create (before ++ after))
    (hreached : before.foldlM (step layout) create = some s)
    (hn : s.store.history.read p = some n) (hst : n.status ≠ .active) :
    EveryState (step layout)
      (fun s' => ∀ handle, s'.store.handles.read handle = some p →
        ∀ id, s'.store.getBlock layout handle id = some (s.maps p id)) s after := by
  have hs : s.Sound layout := ((create_sound layout).run hrun.append_left).last hreached
  refine hs.kept (Heap.lt_next_of_read hn) ?_ (hrun.append_right hreached)
  rw [activeId, hn, Option.bind_some, if_neg hst]

/-- The first snapshot, before and after its branch has changed the shared block. -/
theorem inactive_kept_firstBranch : ∃ s, EveryState (step .store)
    (fun s' => ∀ handle, s'.store.handles.read handle = some 0 →
      ∀ id, s'.store.getBlock .store handle id = some (s.maps 0 id)) s firstBranch.tail := by
  obtain ⟨s, hs⟩ : ∃ s, List.foldlM (step .store) create [.call .openMaster] = some s :=
    Option.isSome_iff_exists.mp (by decide +kernel)
  have hstatus : (List.foldlM (step .store) create [.call .openMaster]).bind
      (fun s => (s.store.history.read 0).map HistoryNode.status) = some .committed := by
    decide +kernel
  rw [hs, Option.bind_some] at hstatus
  obtain ⟨n, hn, hst⟩ := Option.map_eq_some_iff.mp hstatus
  have hrun : EveryStep (step .store) (CallOk .store) create
      ([.call .openMaster] ++ firstBranch.tail) := firstBranch_ok
  exact ⟨s, inactive_kept_run hrun hs hn (by rw [hst]; decide)⟩

structure Exact (s : StoreSession) : Prop where
  counters : ∀ x, s.store.heaps.refsOf x = s.store.heaps.slots x + held s.store.rootOf x
  blocks : ∀ b, (s.store.heaps.blocks.read b).isSome ↔ 0 < s.store.heaps.slots (.block b)

theorem Sound.exact (h : s.Sound layout) : s.Exact := by
  obtain ⟨values, htrees, -⟩ := h.trees
  refine ⟨htrees.planted.balanced, ?_⟩
  intro b
  have hbal : s.store.heaps.refsOf (.block b) = s.store.heaps.slots (.block b) + (0 : Nat) :=
    htrees.planted.balanced (.block b)
  constructor
  · intro hlive
    obtain ⟨block, hblock⟩ := Option.isSome_iff_exists.mp hlive
    have hpos := htrees.planted.counted b block hblock
    have hrefs : s.store.heaps.refsOf (.block b) = block.refs := by
      rw [refsOf, hblock, Option.elim_some]
    omega
  · intro hpos
    obtain ⟨block, hblock⟩ := exists_block_of_refs (t := s.store.heaps) (b := b) (by omega)
    rw [hblock]
    rfl

/-- In every state of every run the counters are the numbers of slots and roots, and the data blocks
are those with a slot. -/
theorem counters_exact_run {ops : List StoreOp}
    (hrun : EveryStep (step layout) (CallOk layout) create ops) :
    EveryState (step layout) Exact create ops :=
  .of_invariant (fun _ _ _ hs hok hstep => (hs.step hok hstep).1) (fun _ hs => hs.exact)
    (create_sound layout) hrun

theorem counters_exact_firstBranch : EveryState (step .store) Exact create firstBranch :=
  counters_exact_run firstBranch_ok

end StoreSession

end Memoria

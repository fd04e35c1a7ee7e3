import Memoria.History

/-!
# The invariant of the history tree

What every call of the store keeps, whatever the state of the three tables: the nodes form a tree
under one committed root, a node is older than its children, a snapshot without data is dropped and
has no handles, and every live node is registered under its own id.
-/

namespace Memoria.MemoryStore

open Lib

variable {D R : Type}

structure Shape (s : MemoryStore D R) : Prop where
  rootLive : ∃ n, s.history.read s.historyTree = some n ∧ n.parent = none
  rootOnly : ∀ {p n}, s.history.read p = some n → n.parent = none → p = s.historyTree
  parentLive : ∀ {p n q}, s.history.read p = some n → n.parent = some q →
    q < p ∧ ∃ m, s.history.read q = some m ∧ p ∈ m.children
  childLive : ∀ {p n c}, s.history.read p = some n → c ∈ n.children →
    ∃ m, s.history.read c = some m ∧ m.parent = some p
  childNodup : ∀ {p n}, s.history.read p = some n → n.children.Nodup
  registered : ∀ {p n}, s.history.read p = some n →
    n.snapshotId < s.nextSnapshotId ∧ s.snapshotMap n.snapshotId = some p
  mapBound : ∀ {id p}, s.snapshotMap id = some p → id < s.nextSnapshotId ∧ p < s.history.next

structure NodeOk (n : HistoryNode R) : Prop where
  cleared : n.root = none → n.status = .dropped ∧ n.references = 0
  directory : n.rootId.isSome = n.root.isSome
  branched : n.children ≠ [] → n.status = .committed ∨ n.status = .dropped
  rootCommitted : n.parent = none → n.status = .committed

theorem NodeOk.exists_parent {n : HistoryNode R} (hok : NodeOk n) (hst : n.status ≠ .committed) :
    ∃ q, n.parent = some q := by
  rw [← Option.isSome_iff_exists, Option.isSome_iff_ne_none]
  exact fun hnone => hst (hok.rootCommitted hnone)

theorem NodeOk.ne_active_of_mem {n : HistoryNode R} (hok : NodeOk n) {c : Nat}
    (hmem : c ∈ n.children) : n.status ≠ .active := by
  rcases hok.branched (List.ne_nil_of_mem hmem) with hst | hst <;> rw [hst] <;> decide

structure Statuses (s : MemoryStore D R) : Prop where
  node : ∀ {p n}, s.history.read p = some n → NodeOk n
  master : s.master < s.history.next ∧
    ∀ {n}, s.history.read s.master = some n → n.status ≠ .active
  branches : ∀ {b}, b ∈ s.namedBranches → b.2 < s.history.next ∧
    ∀ {n}, s.history.read b.2 = some n → n.status ≠ .active

def handleCount (s : MemoryStore D R) (p : Nat) : Nat :=
  s.handles.sum fun _ q => if q = p then 1 else 0

structure Handles (s : MemoryStore D R) : Prop where
  live : ∀ {h p}, s.handles.read h = some p → ∃ n, s.history.read p = some n
  counted : ∀ {p n}, s.history.read p = some n → n.references = s.handleCount p

structure Inv (s : MemoryStore D R) : Prop where
  shape : Shape s
  statuses : Statuses s
  handles : Handles s

@[simp] theorem read_modifyNode (s : MemoryStore D R) (p q : Nat)
    (f : HistoryNode R → HistoryNode R) :
    (s.modifyNode p f).history.read q
      = if q = p then (s.history.read q).map f else s.history.read q :=
  Heap.read_modify _ _ _ _

/-- Reading after a write: the old node, through the write where it went. -/
theorem exists_of_read_modifyNode {s : MemoryStore D R} {p q : Nat}
    {f : HistoryNode R → HistoryNode R} {n : HistoryNode R}
    (hread : (s.modifyNode p f).history.read q = some n) :
    ∃ m, s.history.read q = some m ∧ n = if q = p then f m else m := by
  rw [read_modifyNode] at hread
  split at hread
  · obtain ⟨m, hm, rfl⟩ := Option.map_eq_some_iff.mp hread
    exact ⟨m, hm, by simp [*]⟩
  · exact ⟨n, hread, by simp [*]⟩

theorem read_modifyNode_of_read {s : MemoryStore D R} {q : Nat} {m : HistoryNode R} (p : Nat)
    (f : HistoryNode R → HistoryNode R) (hread : s.history.read q = some m) :
    (s.modifyNode p f).history.read q = some (if q = p then f m else m) := by
  rw [read_modifyNode, hread]
  split <;> simp

/-- A change of tables or data leaves the invariants of the nodes alone. -/
theorem Shape.of_history_eq {s s' : MemoryStore D R} (hs : Shape s)
    (hhistory : s'.history = s.history) (htree : s'.historyTree = s.historyTree)
    (hmap : s'.snapshotMap = s.snapshotMap) (hid : s'.nextSnapshotId = s.nextSnapshotId) :
    Shape s' where
  rootLive := by rw [hhistory, htree]; exact hs.rootLive
  rootOnly := by rw [hhistory, htree]; exact hs.rootOnly
  parentLive := by rw [hhistory]; exact hs.parentLive
  childLive := by rw [hhistory]; exact hs.childLive
  childNodup := by rw [hhistory]; exact hs.childNodup
  registered := by rw [hhistory, hmap, hid]; exact hs.registered
  mapBound := by rw [hhistory, hmap, hid]; exact hs.mapBound

/-- A write that keeps a node's links and id keeps the shape. -/
theorem Shape.modifyNode {s : MemoryStore D R} (hs : Shape s) (p : Nat)
    {f : HistoryNode R → HistoryNode R} (hparent : ∀ n, (f n).parent = n.parent)
    (hchildren : ∀ n, (f n).children = n.children) (hid : ∀ n, (f n).snapshotId = n.snapshotId) :
    Shape (s.modifyNode p f) := by
  have hback : ∀ {q n}, (s.modifyNode p f).history.read q = some n → ∃ m,
      s.history.read q = some m ∧ n.parent = m.parent ∧ n.children = m.children ∧
        n.snapshotId = m.snapshotId := by
    intro q n hread
    obtain ⟨m, hm, rfl⟩ := exists_of_read_modifyNode hread
    refine ⟨m, hm, ?_⟩
    split <;> simp [hparent, hchildren, hid]
  have hforth : ∀ {q m}, s.history.read q = some m → ∃ n,
      (s.modifyNode p f).history.read q = some n ∧ n.parent = m.parent ∧
        n.children = m.children := by
    intro q m hm
    refine ⟨_, read_modifyNode_of_read p f hm, ?_⟩
    split <;> simp [hparent, hchildren]
  refine ⟨?_, ?_, ?_, ?_, ?_, ?_, fun h => hs.mapBound h⟩
  · obtain ⟨m, hm, hnone⟩ := hs.rootLive
    obtain ⟨n, hn, hp, -⟩ := hforth hm
    exact ⟨n, hn, hp.trans hnone⟩
  · intro q n hread hnone
    obtain ⟨m, hm, hp, -⟩ := hback hread
    exact hs.rootOnly hm (hp.symm.trans hnone)
  · intro q n r hread hsome
    obtain ⟨m, hm, hp, -⟩ := hback hread
    obtain ⟨hlt, k, hk, hmem⟩ := hs.parentLive hm (hp.symm.trans hsome)
    obtain ⟨k', hk', -, hc⟩ := hforth hk
    exact ⟨hlt, k', hk', hc ▸ hmem⟩
  · intro q n c hread hmem
    obtain ⟨m, hm, -, hc, -⟩ := hback hread
    obtain ⟨k, hk, hkp⟩ := hs.childLive hm (hc ▸ hmem)
    obtain ⟨k', hk', hp', -⟩ := hforth hk
    exact ⟨k', hk', hp'.trans hkp⟩
  · intro q n hread
    obtain ⟨m, hm, -, hc, -⟩ := hback hread
    exact hc ▸ hs.childNodup hm
  · intro q n hread
    obtain ⟨m, hm, -, -, hi⟩ := hback hread
    exact hi ▸ hs.registered hm

/-- A write that keeps `NodeOk` and makes no node active keeps the statuses. -/
theorem Statuses.modifyNode {s : MemoryStore D R} (hs : Statuses s) (p : Nat)
    {f : HistoryNode R → HistoryNode R}
    (hok : ∀ n, s.history.read p = some n → NodeOk (f n))
    (hactive : ∀ n, s.history.read p = some n → (f n).status = .active → n.status = .active) :
    Statuses (s.modifyNode p f) := by
  refine ⟨?_, ⟨hs.master.1, ?_⟩, fun hmem => ⟨(hs.branches hmem).1, ?_⟩⟩
  · intro q n hread
    obtain ⟨m, hm, rfl⟩ := exists_of_read_modifyNode hread
    split
    · rename_i heq
      subst heq
      exact hok m hm
    · exact hs.node hm
  · intro n hread
    obtain ⟨m, hm, rfl⟩ := exists_of_read_modifyNode hread
    split
    · rename_i heq
      intro hst
      exact hs.master.2 hm (hactive m (heq ▸ hm) hst)
    · exact hs.master.2 hm
  · intro n hread
    obtain ⟨m, hm, rfl⟩ := exists_of_read_modifyNode hread
    split
    · rename_i heq
      intro hst
      exact (hs.branches hmem).2 hm (hactive m (heq ▸ hm) hst)
    · exact (hs.branches hmem).2 hm

/-- A write that keeps the number of references keeps the handles. -/
theorem Handles.modifyNode {s : MemoryStore D R} (hs : Handles s) (p : Nat)
    {f : HistoryNode R → HistoryNode R} (hrefs : ∀ n, (f n).references = n.references) :
    Handles (s.modifyNode p f) := by
  refine ⟨?_, ?_⟩
  · intro h q hread
    obtain ⟨n, hn⟩ := hs.live hread
    exact ⟨_, read_modifyNode_of_read p f hn⟩
  · intro q n hread
    obtain ⟨m, hm, rfl⟩ := exists_of_read_modifyNode hread
    have hcount := hs.counted hm
    split
    · rw [hrefs]
      exact hcount
    · exact hcount

/-- Writes that touch neither links, ids nor reference counts. -/
theorem Inv.modifyNode {s : MemoryStore D R} (hs : Inv s) (p : Nat)
    {f : HistoryNode R → HistoryNode R} (hparent : ∀ n, (f n).parent = n.parent)
    (hchildren : ∀ n, (f n).children = n.children) (hid : ∀ n, (f n).snapshotId = n.snapshotId)
    (hrefs : ∀ n, (f n).references = n.references)
    (hok : ∀ n, s.history.read p = some n → NodeOk (f n))
    (hactive : ∀ n, s.history.read p = some n → (f n).status = .active → n.status = .active) :
    Inv (s.modifyNode p f) :=
  ⟨hs.shape.modifyNode p hparent hchildren hid, hs.statuses.modifyNode p hok hactive,
    hs.handles.modifyNode p hrefs⟩

/-- The counter and the data of snapshots are in none of the invariants. -/
theorem Inv.of_counter {s : MemoryStore D R} (hs : Inv s) (active : Int) (data : D) :
    Inv { s with activeSnapshots := active, data := data } :=
  ⟨hs.shape.of_history_eq rfl rfl rfl rfl,
    ⟨hs.statuses.node, hs.statuses.master, hs.statuses.branches⟩,
    ⟨hs.handles.live, hs.handles.counted⟩⟩

theorem create_inv (L : DataLayer D R) : Inv (create L) := by
  have hread : ∀ {p n}, (create L).history.read p = some n → p = 0 ∧ n.parent = none ∧
      n.children = [] ∧ n.status = .committed ∧ n.root.isSome ∧ n.rootId.isSome ∧
      n.snapshotId = 0 ∧ n.references = 0 := by
    intro p n h
    simp only [create, Heap.read_alloc, Heap.read_empty] at h
    split at h
    · rename_i heq
      cases h
      exact ⟨heq, rfl, rfl, rfl, rfl, rfl, rfl, rfl⟩
    · cases h
  refine ⟨⟨⟨_, rfl, rfl⟩, ?_, ?_, ?_, ?_, ?_, ?_⟩, ⟨?_, ⟨Nat.zero_lt_one, ?_⟩, ?_⟩, ⟨?_, ?_⟩⟩
  · exact fun h _ => (hread h).1
  · intro p n q h hq
    rw [(hread h).2.1] at hq
    cases hq
  · intro p n c h hc
    rw [(hread h).2.2.1] at hc
    cases hc
  · intro p n h
    rw [(hread h).2.2.1]
    exact List.nodup_nil
  · intro p n h
    obtain ⟨rfl, -, -, -, -, -, hid, -⟩ := hread h
    rw [hid]
    exact ⟨Nat.zero_lt_one, rfl⟩
  · intro id p h
    simp only [create] at h
    split at h
    · rename_i heq
      cases h
      exact ⟨heq ▸ Nat.zero_lt_one, Nat.zero_lt_one⟩
    · cases h
  · intro p n h
    obtain ⟨-, -, hc, hst, hr, hri, -, -⟩ := hread h
    refine ⟨?_, by rw [hr, hri], fun hne => absurd hc hne, fun _ => hst⟩
    intro hnone
    rw [hnone] at hr
    cases hr
  · intro n h
    rw [(hread h).2.2.2.1]
    decide
  · intro b hb
    cases hb
  · intro h p hh
    simp [create] at hh
  · intro p n h
    rw [(hread h).2.2.2.2.2.2.2]
    rfl

end Memoria.MemoryStore

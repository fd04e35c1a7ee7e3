import Memoria.Proof.HistorySteps

/-!
# Grafting and splicing history nodes

The two changes of the tree itself. `branch` hangs a new node under an old one; the release of an
active snapshot and `pack` take a node out and leave its children to its parent.
-/

namespace Memoria.MemoryStore

open Lib

variable {D R : Type}

def splice (p q : Nat) (children : List Nat) (r : Nat) (m : HistoryNode R) : HistoryNode R :=
  { m with
    parent := if r ∈ children then some q else m.parent
    children := if r = q then m.children.erase p ++ children else m.children }

structure Spliced (s s' : MemoryStore D R) (p q : Nat) (n : HistoryNode R) : Prop where
  next : s'.history.next = s.history.next
  read : ∀ r, s'.history.read r
    = if r = p then none else (s.history.read r).map (splice p q n.children r)
  tree : s'.historyTree = s.historyTree
  master : s'.master = s.master
  branches : s'.namedBranches = s.namedBranches
  handles : s'.handles = s.handles
  ids : s'.nextSnapshotId = s.nextSnapshotId
  map : s'.snapshotMap = s.snapshotMap ∨
    s'.snapshotMap = fun id => if id = n.snapshotId then none else s.snapshotMap id

section Splice

variable {s s' : MemoryStore D R} {p q : Nat} {n : HistoryNode R}

theorem Spliced.exists_of_read (h : Spliced s s' p q n) {r : Nat} {m : HistoryNode R}
    (hread : s'.history.read r = some m) :
    r ≠ p ∧ ∃ k, s.history.read r = some k ∧ m = splice p q n.children r k := by
  rw [h.read] at hread
  split at hread
  · cases hread
  · rename_i hne
    obtain ⟨k, hk, rfl⟩ := Option.map_eq_some_iff.mp hread
    exact ⟨hne, k, hk, rfl⟩

theorem Spliced.read_of_read (h : Spliced s s' p q n) {r : Nat} {k : HistoryNode R}
    (hne : r ≠ p) (hread : s.history.read r = some k) :
    s'.history.read r = some (splice p q n.children r k) := by
  rw [h.read, if_neg hne, hread]
  rfl

/-- A live node has one parent. -/
theorem Shape.parent_unique (hs : Shape s) {a b c : Nat} {na nb : HistoryNode R}
    (ha : s.history.read a = some na) (hb : s.history.read b = some nb) (hca : c ∈ na.children)
    (hcb : c ∈ nb.children) : a = b := by
  obtain ⟨m, hm, hma⟩ := hs.childLive ha hca
  obtain ⟨m', hm', hmb⟩ := hs.childLive hb hcb
  have hmm : m' = m := Option.some.inj (hm'.symm.trans hm)
  subst hmm
  exact Option.some.inj (hma.symm.trans hmb)

theorem Shape.splice (hs : Shape s) (hn : s.history.read p = some n) (hparent : n.parent = some q)
    (h : Spliced s s' p q n) : Shape s' := by
  obtain ⟨hqp, nq, hnq, hpq⟩ := hs.parentLive hn hparent
  refine ⟨?_, ?_, ?_, ?_, ?_, ?_, ?_⟩
  · obtain ⟨m, hm, hnone⟩ := hs.rootLive
    have hne : s.historyTree ≠ p := by
      intro heq
      rw [heq, hn] at hm
      cases hm
      rw [hparent] at hnone
      cases hnone
    have hnot : s.historyTree ∉ n.children := by
      intro hmem
      obtain ⟨k, hk, hkp⟩ := hs.childLive hn hmem
      rw [hm] at hk
      cases hk
      rw [hnone] at hkp
      cases hkp
    rw [h.tree]
    exact ⟨_, h.read_of_read hne hm, by simp [MemoryStore.splice, hnot, hnone]⟩
  · intro r m hread hnone
    obtain ⟨-, k, hk, rfl⟩ := h.exists_of_read hread
    rw [h.tree]
    refine hs.rootOnly hk ?_
    by_contra hk'
    by_cases hmem : r ∈ n.children <;> simp [MemoryStore.splice, hmem, hk'] at hnone
  · intro r m r' hread hpar
    obtain ⟨hne, k, hk, rfl⟩ := h.exists_of_read hread
    by_cases hmem : r ∈ n.children
    · -- A child of the node that went: its parent is now `q`.
      have hr' : r' = q := by simpa [MemoryStore.splice, hmem] using hpar.symm
      subst hr'
      obtain ⟨k', hk', hkp⟩ := hs.childLive hn hmem
      rw [hk] at hk'
      cases hk'
      have hpr := (hs.parentLive hk hkp).1
      refine ⟨by omega, _, h.read_of_read (by omega) hnq, ?_⟩
      simp [MemoryStore.splice, hmem]
    · have hkp : k.parent = some r' := by simpa [MemoryStore.splice, hmem] using hpar
      obtain ⟨hlt, m', hm', hrm⟩ := hs.parentLive hk hkp
      have hr'p : r' ≠ p := by
        intro heq
        subst heq
        rw [hn] at hm'
        cases hm'
        exact hmem hrm
      refine ⟨hlt, _, h.read_of_read hr'p hm', ?_⟩
      by_cases hrq : r' = q
      · simp [MemoryStore.splice, hrq, (List.mem_erase_of_ne hne).mpr hrm]
      · simp [MemoryStore.splice, hrq, hrm]
  · intro r m c hread hc
    obtain ⟨hne, k, hk, rfl⟩ := h.exists_of_read hread
    by_cases hmem : c ∈ n.children
    · -- The child of the node that went can only be found under `q`.
      have hrq : r = q := by
        by_contra hrq
        have hck : c ∈ k.children := by simpa [MemoryStore.splice, hrq] using hc
        exact hne (hs.parent_unique hk hn hck hmem)
      obtain ⟨k', hk', hkp⟩ := hs.childLive hn hmem
      have hpc := (hs.parentLive hk' hkp).1
      refine ⟨_, h.read_of_read (by omega) hk', ?_⟩
      simp [MemoryStore.splice, hmem, hrq]
    · have hck : c ∈ k.children ∧ c ≠ p := by
        by_cases hrq : r = q
        · have hce : c ∈ k.children.erase p := by
            simpa [MemoryStore.splice, hrq, hmem] using hc
          have := (hs.childNodup hk).mem_erase_iff.mp hce
          exact ⟨this.2, this.1⟩
        · have hck : c ∈ k.children := by simpa [MemoryStore.splice, hrq] using hc
          refine ⟨hck, ?_⟩
          rintro rfl
          exact hrq (hs.parent_unique hk hnq hck hpq)
      obtain ⟨m', hm', hmp⟩ := hs.childLive hk hck.1
      refine ⟨_, h.read_of_read hck.2 hm', ?_⟩
      simp [MemoryStore.splice, hmem, hmp]
  · intro r m hread
    obtain ⟨hne, k, hk, rfl⟩ := h.exists_of_read hread
    by_cases hrq : r = q
    · simp only [MemoryStore.splice, hrq, if_true]
      refine List.Nodup.append ((hs.childNodup hk).erase p) (hs.childNodup hn) ?_
      intro c hck hcn
      exact hne (hs.parent_unique hk hn (List.mem_of_mem_erase hck) hcn)
    · simpa [MemoryStore.splice, hrq] using hs.childNodup hk
  · intro r m hread
    obtain ⟨hne, k, hk, rfl⟩ := h.exists_of_read hread
    obtain ⟨hlt, hreg⟩ := hs.registered hk
    rw [h.ids]
    refine ⟨hlt, ?_⟩
    change s'.snapshotMap k.snapshotId = some r
    rcases h.map with hmap | hmap <;> rw [hmap]
    · exact hreg
    · have hid : k.snapshotId ≠ n.snapshotId := by
        intro heq
        have hregn := (hs.registered hn).2
        rw [heq, hregn] at hreg
        exact hne (Option.some.inj hreg).symm
      simp only [if_neg hid]
      exact hreg
  · intro id r hid
    rw [h.ids, h.next]
    rcases h.map with hmap | hmap <;> rw [hmap] at hid
    · exact hs.mapBound hid
    · simp only at hid
      split at hid
      · cases hid
      · exact hs.mapBound hid

theorem Statuses.splice (hs : Inv s) (hn : s.history.read p = some n) (hparent : n.parent = some q)
    (h : Spliced s s' p q n) : Statuses s' := by
  obtain ⟨-, nq, hnq, hpq⟩ := hs.shape.parentLive hn hparent
  refine ⟨?_, ?_, ?_⟩
  · intro r m hread
    obtain ⟨hne, k, hk, rfl⟩ := h.exists_of_read hread
    have hok := hs.statuses.node hk
    refine ⟨hok.cleared, hok.directory, ?_, ?_⟩
    · intro hchildren
      refine hok.branched ?_
      by_cases hrq : r = q
      · subst hrq
        rw [hnq] at hk
        cases hk
        exact List.ne_nil_of_mem hpq
      · simpa [MemoryStore.splice, hrq] using hchildren
    · intro hnone
      refine hok.rootCommitted ?_
      by_contra hk'
      by_cases hmem : r ∈ n.children <;> simp [MemoryStore.splice, hmem, hk'] at hnone
  · rw [h.master, h.next]
    refine ⟨hs.statuses.master.1, ?_⟩
    intro m hread
    obtain ⟨-, k, hk, rfl⟩ := h.exists_of_read hread
    change k.status ≠ .active
    exact hs.statuses.master.2 hk
  · intro b hb
    rw [h.branches] at hb
    rw [h.next]
    refine ⟨(hs.statuses.branches hb).1, ?_⟩
    intro m hread
    obtain ⟨-, k, hk, rfl⟩ := h.exists_of_read hread
    change k.status ≠ .active
    exact (hs.statuses.branches hb).2 hk

/-- No handle belongs to a node without references. -/
theorem Handles.ne_of_references_eq_zero (hs : Handles s) (hn : s.history.read p = some n)
    (hrefs : n.references = 0) {handle r : Nat} (hread : s.handles.read handle = some r) :
    r ≠ p := by
  rintro rfl
  have hcount := hs.counted hn
  rw [hrefs] at hcount
  have := Heap.sum_eq_zero.mp hcount.symm handle r hread
  simp at this

theorem Handles.splice (hs : Handles s) (hn : s.history.read p = some n)
    (hrefs : n.references = 0) (h : Spliced s s' p q n) : Handles s' := by
  refine ⟨?_, ?_⟩
  · intro handle r hread
    rw [h.handles] at hread
    obtain ⟨m, hm⟩ := hs.live hread
    exact ⟨_, h.read_of_read (hs.ne_of_references_eq_zero hn hrefs hread) hm⟩
  · intro r m hread
    obtain ⟨-, k, hk, rfl⟩ := h.exists_of_read hread
    unfold handleCount
    rw [h.handles]
    change k.references = s.handleCount r
    exact hs.counted hk

theorem Inv.splice (hs : Inv s) (hn : s.history.read p = some n) (hparent : n.parent = some q)
    (hrefs : n.references = 0) (h : Spliced s s' p q n) : Inv s' :=
  ⟨hs.shape.splice hn hparent h, Statuses.splice hs hn hparent h, hs.handles.splice hn hrefs h⟩

theorem openCount_splice (hn : s.history.read p = some n) (h : Spliced s s' p q n) :
    s'.openCount + openShare n.status = s.openCount := by
  have hsum := Heap.sum_eq_of_eq_off (h := s.history) (k := s'.history) (p := p)
    (fun _ m => openShare m.status) h.next ?_
  · rw [hn, h.read, if_pos rfl] at hsum
    simpa [openCount] using hsum
  · intro r hr
    rw [h.read, if_neg hr]
    cases s.history.read r <;> rfl

theorem removeFromParent_eq (hn : s.history.read p = some n) (hparent : n.parent = some q)
    (h : s.removeFromParent p = some s') : s' = s.modifyNode q (.removeChild p) := by
  simp only [removeFromParent, hn, hparent, Option.bind_eq_bind, Option.bind_some,
    Option.bind_eq_some_iff, Option.some.injEq] at h
  obtain ⟨-, -, rfl⟩ := h
  rfl

/-- What `do_remove_history_node` does to a node below the root. -/
theorem doRemoveHistoryNode_cases (hs : Inv s) (hn : s.history.read p = some n)
    (hparent : n.parent = some q) (h : s.doRemoveHistoryNode p = some s') :
    s' = s ∨ Spliced s s' p q n ∧ s'.activeSnapshots = s.activeSnapshots := by
  simp only [doRemoveHistoryNode, hn, Option.bind_eq_bind, Option.bind_some] at h
  obtain ⟨hqp, nq, hnq, hpq⟩ := hs.shape.parentLive hn hparent
  split at h
  · rename_i hnil
    simp only [Option.bind_eq_some_iff, Option.some.injEq] at h
    obtain ⟨t, ht, rfl⟩ := h
    obtain rfl := removeFromParent_eq hn hparent ht
    refine Or.inr ⟨⟨rfl, ?_, rfl, rfl, rfl, rfl, rfl, Or.inl rfl⟩, rfl⟩
    intro r
    rw [hnil]
    simp only [deleteNode, Heap.read_free, read_modifyNode]
    by_cases hrp : r = p
    · simp [hrp]
    · by_cases hrq : r = q <;> cases s.history.read r <;>
        simp [hrp, hrq, MemoryStore.splice, HistoryNode.removeChild]
  · rename_i child hone
    simp only [Option.bind_eq_some_iff, Option.some.injEq, hparent] at h
    obtain ⟨t, ht, q', rfl, -, -, -, -, rfl⟩ := h
    obtain rfl := removeFromParent_eq hn hparent ht
    refine Or.inr ⟨⟨rfl, ?_, rfl, rfl, rfl, rfl, rfl, Or.inl rfl⟩, rfl⟩
    obtain ⟨m, hm, hmp⟩ := hs.shape.childLive hn (c := child) (by simp [hone])
    have hpc := (hs.shape.parentLive hm hmp).1
    intro r
    rw [hone]
    simp only [read_modifyNode, deleteNode, Heap.read_free]
    by_cases hrp : r = p
    · have hpq' : p ≠ q := by omega
      have hpc' : p ≠ child := by omega
      simp [hrp, hpq', hpc']
    · by_cases hrq : r = q
      · subst hrq
        have hrc : r ≠ child := by omega
        cases s.history.read r <;>
          simp [hrp, hrc, MemoryStore.splice, HistoryNode.removeChild, HistoryNode.addChild]
      · by_cases hrc : r = child
        · subst hrc
          cases s.history.read r <;> simp [hrp, hrq, MemoryStore.splice, HistoryNode.setParent]
        · cases s.history.read r <;> simp [hrp, hrq, hrc, MemoryStore.splice]
  · cases h
    exact Or.inl rfl

theorem forgetSnapshot_spliced (hn : s.history.read p = some n) (hparent : n.parent = some q)
    (hchildren : n.children = []) (h : s.forgetSnapshot p = some s') :
    Spliced s s' p q n ∧ s'.activeSnapshots = s.activeSnapshots ∧
      s'.snapshotMap = fun id => if id = n.snapshotId then none else s.snapshotMap id := by
  simp only [forgetSnapshot, hn, Option.bind_eq_bind, Option.bind_some, Option.bind_eq_some_iff,
    Option.some.injEq] at h
  obtain ⟨t, ht, rfl⟩ := h
  simp only [removeFromParent, hn, hparent, Option.bind_eq_bind, Option.bind_some,
    Option.bind_eq_some_iff, Option.some.injEq] at ht
  obtain ⟨-, -, rfl⟩ := ht
  refine ⟨⟨rfl, ?_, rfl, rfl, rfl, rfl, rfl, Or.inr rfl⟩, rfl, rfl⟩
  intro r
  rw [hchildren]
  simp only [deleteNode, Heap.read_free, read_modifyNode]
  by_cases hrp : r = p
  · simp [hrp]
  · by_cases hrq : r = q <;> cases s.history.read r <;>
      simp [hrp, hrq, MemoryStore.splice, HistoryNode.removeChild]

end Splice

section Graft

variable {s s' : MemoryStore D R} {p : Nat} {n c : HistoryNode R}

def adopt (p child r : Nat) (m : HistoryNode R) : HistoryNode R :=
  { m with children := if r = p then m.children ++ [child] else m.children }

structure Grafted (s s' : MemoryStore D R) (p : Nat) (c : HistoryNode R) : Prop where
  history : s'.history = (s.history.modify p (.addChild s.history.next)).alloc c
  tree : s'.historyTree = s.historyTree
  master : s'.master = s.master
  branches : s'.namedBranches = s.namedBranches
  handles : s'.handles = s.handles.alloc s.history.next
  ids : s'.nextSnapshotId = s.nextSnapshotId + 1
  map : s'.snapshotMap
    = fun id => if id = s.nextSnapshotId then some s.history.next else s.snapshotMap id
  counter : s'.activeSnapshots = s.activeSnapshots + 1
  parent : c.parent = some p
  children : c.children = []
  status : c.status = .active
  references : c.references = 1
  root : c.root.isSome
  rootId : c.rootId.isSome
  snapshotId : c.snapshotId = s.nextSnapshotId

theorem Grafted.exists_of_read (h : Grafted s s' p c) {r : Nat} {m : HistoryNode R}
    (hread : s'.history.read r = some m) :
    r = s.history.next ∧ m = c ∨ r < s.history.next ∧
      ∃ k, s.history.read r = some k ∧
        m = adopt p s.history.next r k := by
  rw [h.history, Heap.read_alloc] at hread
  split at hread
  · rename_i heq
    cases hread
    exact Or.inl ⟨heq, rfl⟩
  · refine Or.inr ?_
    rw [Heap.read_modify] at hread
    split at hread
    · rename_i heq
      obtain ⟨k, hk, rfl⟩ := Option.map_eq_some_iff.mp hread
      exact ⟨Heap.lt_next_of_read hk, k, hk, by simp [adopt, heq, HistoryNode.addChild]⟩
    · rename_i hne
      exact ⟨Heap.lt_next_of_read hread, m, hread, by simp [adopt, hne]⟩

theorem Grafted.read_new (h : Grafted s s' p c) : s'.history.read s.history.next = some c := by
  rw [h.history]
  exact Heap.read_alloc_self (s.history.modify p (.addChild s.history.next)) c

theorem Grafted.read_of_read (h : Grafted s s' p c) {r : Nat} {k : HistoryNode R}
    (hread : s.history.read r = some k) :
    s'.history.read r = some (adopt p s.history.next r k) := by
  rw [h.history]
  refine Heap.read_alloc_of_read ?_
  rw [Heap.read_modify, hread]
  split <;> simp [adopt, HistoryNode.addChild, *]

theorem Shape.graft (hs : Shape s) (hn : s.history.read p = some n) (h : Grafted s s' p c) :
    Shape s' := by
  have hp := Heap.lt_next_of_read hn
  have hnext : s'.history.next = s.history.next + 1 := by rw [h.history]; rfl
  refine ⟨?_, ?_, ?_, ?_, ?_, ?_, ?_⟩
  · obtain ⟨m, hm, hnone⟩ := hs.rootLive
    rw [h.tree]
    exact ⟨_, h.read_of_read hm, hnone⟩
  · intro r m hread hnone
    rw [h.tree]
    rcases h.exists_of_read hread with ⟨-, rfl⟩ | ⟨-, k, hk, rfl⟩
    · rw [h.parent] at hnone
      cases hnone
    · exact hs.rootOnly hk hnone
  · intro r m r' hread hpar
    rcases h.exists_of_read hread with ⟨rfl, rfl⟩ | ⟨-, k, hk, rfl⟩
    · rw [h.parent] at hpar
      cases hpar
      exact ⟨hp, _, h.read_of_read hn, by simp [adopt]⟩
    · obtain ⟨hlt, m', hm', hmem⟩ := hs.parentLive hk hpar
      refine ⟨hlt, _, h.read_of_read hm', ?_⟩
      unfold adopt
      split
      · exact List.mem_append_left _ hmem
      · exact hmem
  · intro r m c' hread hmem
    rcases h.exists_of_read hread with ⟨-, rfl⟩ | ⟨-, k, hk, rfl⟩
    · rw [h.children] at hmem
      cases hmem
    · have hcases : c' ∈ k.children ∨ r = p ∧ c' = s.history.next := by
        unfold adopt at hmem
        split at hmem
        · rename_i heq
          rcases List.mem_append.mp hmem with hold | hnew
          · exact Or.inl hold
          · exact Or.inr ⟨heq, List.mem_singleton.mp hnew⟩
        · exact Or.inl hmem
      rcases hcases with hold | ⟨rfl, rfl⟩
      · obtain ⟨m', hm', hmp⟩ := hs.childLive hk hold
        exact ⟨_, h.read_of_read hm', hmp⟩
      · exact ⟨c, h.read_new, h.parent⟩
  · intro r m hread
    rcases h.exists_of_read hread with ⟨-, rfl⟩ | ⟨-, k, hk, rfl⟩
    · rw [h.children]
      exact List.nodup_nil
    · have hnodup := hs.childNodup hk
      unfold adopt
      split
      · refine hnodup.append (List.nodup_singleton _) ?_
        intro c' hold hnew
        obtain ⟨m', hm', -⟩ := hs.childLive hk hold
        have hlt := Heap.lt_next_of_read hm'
        have := List.mem_singleton.mp hnew
        omega
      · exact hnodup
  · intro r m hread
    rw [h.ids, h.map]
    rcases h.exists_of_read hread with ⟨rfl, rfl⟩ | ⟨-, k, hk, rfl⟩
    · rw [h.snapshotId]
      exact ⟨Nat.lt_succ_self _, by simp⟩
    · obtain ⟨hlt, hreg⟩ := hs.registered hk
      change k.snapshotId < _ ∧ _
      refine ⟨by omega, ?_⟩
      change (if k.snapshotId = s.nextSnapshotId then _ else _) = _
      rw [if_neg (by omega)]
      exact hreg
  · intro id r hid
    rw [h.map] at hid
    rw [h.ids, hnext]
    simp only at hid
    split at hid
    · rename_i heq
      cases hid
      omega
    · have := hs.mapBound hid
      omega

theorem Statuses.graft (hs : Statuses s) (hn : s.history.read p = some n)
    (hst : n.status = .committed) (h : Grafted s s' p c) : Statuses s' := by
  have hnext : s'.history.next = s.history.next + 1 := by rw [h.history]; rfl
  have hactive : ∀ {r}, r < s.history.next →
      (∀ {k}, s.history.read r = some k → k.status ≠ .active) →
      r < s'.history.next ∧ ∀ {m}, s'.history.read r = some m → m.status ≠ .active := by
    intro r hlt hold
    refine ⟨by omega, ?_⟩
    intro m hread
    rcases h.exists_of_read hread with ⟨rfl, -⟩ | ⟨-, k, hk, rfl⟩
    · exact absurd hlt (lt_irrefl _)
    · exact hold (k := k) hk
  refine ⟨?_, ?_, ?_⟩
  · intro r m hread
    rcases h.exists_of_read hread with ⟨-, rfl⟩ | ⟨-, k, hk, rfl⟩
    · refine ⟨?_, ?_, fun hne => absurd h.children hne, ?_⟩
      · intro hnone
        have := h.root
        rw [hnone] at this
        cases this
      · rw [h.root, h.rootId]
      · intro hnone
        rw [h.parent] at hnone
        cases hnone
    · have hok := hs.node hk
      refine ⟨hok.cleared, hok.directory, ?_, hok.rootCommitted⟩
      intro hchildren
      by_cases heq : r = p
      · subst heq
        rw [hn] at hk
        cases hk
        exact Or.inl hst
      · refine hok.branched ?_
        simpa [adopt, heq] using hchildren
  · rw [h.master]
    exact hactive hs.master.1 hs.master.2
  · intro b hb
    rw [h.branches] at hb
    exact hactive (hs.branches hb).1 (hs.branches hb).2

theorem Handles.graft (hs : Handles s) (h : Grafted s s' p c) : Handles s' := by
  have hcount : ∀ r, s'.handleCount r
      = s.handleCount r + if s.history.next = r then 1 else 0 := by
    intro r
    unfold handleCount
    rw [h.handles]
    exact Heap.sum_alloc _ _ _
  refine ⟨?_, ?_⟩
  · intro handle r hread
    rw [h.handles, Heap.read_alloc] at hread
    split at hread
    · cases hread
      exact ⟨c, h.read_new⟩
    · obtain ⟨m, hm⟩ := hs.live hread
      exact ⟨_, h.read_of_read hm⟩
  · intro r m hread
    rw [hcount]
    rcases h.exists_of_read hread with ⟨rfl, rfl⟩ | ⟨hlt, k, hk, rfl⟩
    · have hzero : s.handleCount s.history.next = 0 := by
        refine Heap.sum_eq_zero.mpr ?_
        intro handle r hr
        obtain ⟨m, hm⟩ := hs.live hr
        have hlt := Heap.lt_next_of_read hm
        rw [if_neg (by omega)]
      rw [h.references, hzero, if_pos rfl]
    · have hne : s.history.next ≠ r := by omega
      rw [if_neg hne]
      change k.references = s.handleCount r
      exact hs.counted hk

theorem Inv.graft (hs : Inv s) (hn : s.history.read p = some n) (hst : n.status = .committed)
    (h : Grafted s s' p c) : Inv s' :=
  ⟨hs.shape.graft hn h, hs.statuses.graft hn hst h, hs.handles.graft h⟩

theorem excess_graft (h : Grafted s s' p c) : s'.excess = s.excess := by
  have hcount : s'.openCount = s.openCount + 1 := by
    unfold openCount
    rw [h.history, Heap.sum_alloc, h.status]
    congr 1
    exact Heap.sum_modify_of_eq _ _ fun _ _ => rfl
  unfold excess
  rw [h.counter, hcount]
  omega

end Graft

end Memoria.MemoryStore

import Memoria.Proof.HistoryInvariant

/-!
# What one call does to the history tree

For every call a description of the state it leaves, and from it that the invariant is kept and by
how much the counter of active snapshots moves away from the number of snapshots that are active or
locked.
-/

namespace Memoria.MemoryStore

open Lib

variable {D R : Type}

def openShare : SnapshotStatus → Nat
  | .active => 1
  | .dataLocked => 1
  | .committed => 0
  | .dropped => 0

def openCount (s : MemoryStore D R) : Nat := s.history.sum fun _ n => openShare n.status

def excess (s : MemoryStore D R) : Int := s.activeSnapshots - s.openCount

theorem openCount_modifyNode {s : MemoryStore D R} {p : Nat} {n : HistoryNode R}
    (hread : s.history.read p = some n) (f : HistoryNode R → HistoryNode R) :
    (s.modifyNode p f).openCount + openShare n.status = s.openCount + openShare (f n).status :=
  Heap.sum_modify hread f _

theorem openCount_modifyNode_of_status {s : MemoryStore D R} (p : Nat)
    {f : HistoryNode R → HistoryNode R} (hstatus : ∀ n, (f n).status = n.status) :
    (s.modifyNode p f).openCount = s.openCount :=
  Heap.sum_modify_of_eq f _ fun n _ => by simp only [hstatus]

/-- A change of status together with a change of the counter. -/
theorem excess_setStatus {s : MemoryStore D R} {p : Nat} {n : HistoryNode R}
    (hread : s.history.read p = some n) (status : SnapshotStatus) (active : Int) :
    ({ s.modifyNode p (.setStatus status) with activeSnapshots := active } :
        MemoryStore D R).excess
      = active - s.openCount + openShare n.status - openShare status := by
  have hcount := openCount_modifyNode hread (.setStatus status)
  change active - ((s.modifyNode p (.setStatus status)).openCount : Int) = _
  change _ = s.openCount + openShare status at hcount
  omega

theorem handleCount_alloc (s : MemoryStore D R) (p q : Nat) (active : Int) :
    ({ s with activeSnapshots := active, handles := s.handles.alloc p } :
      MemoryStore D R).handleCount q = s.handleCount q + if p = q then 1 else 0 :=
  Heap.sum_alloc _ _ _

theorem handleCount_free {s : MemoryStore D R} {h p : Nat} (hread : s.handles.read h = some p)
    (q : Nat) :
    ({ s with handles := s.handles.free h } : MemoryStore D R).handleCount q
      + (if p = q then 1 else 0) = s.handleCount q :=
  Heap.sum_free hread _

/-- Opening one more handle of a node. -/
theorem Handles.open {s : MemoryStore D R} (hs : Handles s) {p : Nat} {n : HistoryNode R}
    (hread : s.history.read p = some n) (active : Int) :
    Handles { s.modifyNode p .ref with
      activeSnapshots := active, handles := s.handles.alloc p } := by
  refine ⟨?_, ?_⟩
  · intro h q hh
    change (s.handles.alloc p).read h = some q at hh
    rw [Heap.read_alloc] at hh
    split at hh
    · cases hh
      exact ⟨_, read_modifyNode_of_read p _ hread⟩
    · obtain ⟨m, hm⟩ := hs.live hh
      exact ⟨_, read_modifyNode_of_read p _ hm⟩
  · intro q m hm
    obtain ⟨k, hk, rfl⟩ := exists_of_read_modifyNode hm
    have hcount := hs.counted hk
    have hnew := handleCount_alloc s p q active
    change _ = ({ s with activeSnapshots := active, handles := s.handles.alloc p } :
      MemoryStore D R).handleCount q
    rw [hnew]
    by_cases heq : q = p
    · subst heq
      simp [hcount]
    · have hne : p ≠ q := fun h => heq h.symm
      simp [heq, hne, hcount]

/-- `snp_make_shared_init` on a snapshot that is not active: one more reference, and nothing else. -/
theorem makeSnapshot_of_not_active {L : DataLayer D R} {s s' : MemoryStore D R} {p : Nat}
    {n : HistoryNode R} (hread : s.history.read p = some n) (hst : n.status ≠ .active)
    (h : makeSnapshot L s p = some s') :
    n.rootId.isSome ∧
      s' = { s.modifyNode p .ref with
        activeSnapshots := s.activeSnapshots, handles := s.handles.alloc p } := by
  simp only [makeSnapshot, initTree, hread, Option.bind_eq_bind, Option.bind_some, hst, if_false,
    Option.bind_eq_some_iff, Option.some.injEq] at h
  obtain ⟨id, hid, rfl⟩ := h
  exact ⟨by simp [hid], rfl⟩

theorem Inv.makeSnapshot {L : DataLayer D R} {s s' : MemoryStore D R} (hs : Inv s) {p : Nat}
    {n : HistoryNode R} (hread : s.history.read p = some n) (hst : n.status ≠ .active)
    (h : makeSnapshot L s p = some s') : Inv s' ∧ s'.excess = s.excess := by
  obtain ⟨hid, rfl⟩ := makeSnapshot_of_not_active hread hst h
  have hroot : n.root.isSome := by
    rw [← (hs.statuses.node hread).directory]
    exact hid
  refine ⟨⟨?_, ?_, hs.handles.open hread _⟩, ?_⟩
  · exact (hs.shape.modifyNode p (f := .ref) (fun _ => rfl) (fun _ => rfl)
      (fun _ => rfl)).of_history_eq rfl rfl rfl rfl
  · have hmod := hs.statuses.modifyNode p (f := .ref)
      (fun m hm => by
        have hmn : m = n := Option.some.inj (hm.symm.trans hread)
        subst hmn
        have hok := hs.statuses.node hread
        refine ⟨?_, hok.directory, hok.branched, hok.rootCommitted⟩
        intro hnone
        change m.root = none at hnone
        rw [hnone] at hroot
        cases hroot)
      (fun _ _ h => h)
    exact ⟨hmod.node, hmod.master, hmod.branches⟩
  · change s.activeSnapshots - _ = s.activeSnapshots - _
    congr 2
    exact openCount_modifyNode_of_status p fun _ => rfl

/-- The handle of a node goes away. -/
theorem Handles.close {s : MemoryStore D R} (hs : Handles s) {h p : Nat}
    (hread : s.handles.read h = some p) :
    Handles { s.modifyNode p .unref with
      handles := s.handles.free h } := by
  refine ⟨?_, ?_⟩
  · intro k q hk
    change (s.handles.free h).read k = some q at hk
    rw [Heap.read_free] at hk
    split at hk
    · cases hk
    · obtain ⟨m, hm⟩ := hs.live hk
      exact ⟨_, read_modifyNode_of_read p _ hm⟩
  · intro q m hm
    obtain ⟨k, hk, rfl⟩ := exists_of_read_modifyNode hm
    have hcount := hs.counted hk
    have hnew := handleCount_free hread q
    change _ = ({ s with handles := s.handles.free h } : MemoryStore D R).handleCount q
    by_cases heq : q = p
    · subst heq
      simp only [if_true, HistoryNode.unref_references] at hnew ⊢
      omega
    · have hne : p ≠ q := fun h => heq h.symm
      simp only [if_neg heq, if_neg hne] at hnew ⊢
      omega

theorem commit_spec {s s' : MemoryStore D R} (hs : Inv s) {handle : Nat} {flushed : Bool}
    (h : s.commit handle flushed = some s') : Inv s' ∧ s'.excess = s.excess := by
  simp only [commit, Option.bind_eq_bind, Option.bind_eq_some_iff] at h
  obtain ⟨p, hp, n, hn, h⟩ := h
  split at h
  · rename_i hopen
    split at h
    · cases h
      refine ⟨?_, ?_⟩
      · refine (hs.modifyNode p (f := .setStatus .committed) (fun _ => rfl)
          (fun _ => rfl) (fun _ => rfl) (fun _ => rfl) ?_ ?_).of_counter _ _
        · intro m hm
          have hok := hs.statuses.node hm
          have hmn : m = n := Option.some.inj (hm.symm.trans hn)
          subst hmn
          refine ⟨?_, hok.directory, fun _ => Or.inl rfl, fun _ => rfl⟩
          intro hnone
          have := (hok.cleared hnone).1
          rcases hopen with hst | hst <;> rw [hst] at this <;> cases this
        · intro m _ hst
          cases hst
      · rw [excess_setStatus hn]
        rcases hopen with hst | hst <;> simp [hst, openShare, excess] <;> omega
    · cases h
      exact ⟨hs, rfl⟩
  · cases h
    exact ⟨hs, rfl⟩

theorem lockDataForImport_spec {s s' : MemoryStore D R} (hs : Inv s) {handle : Nat}
    {openContainers : Bool} (h : s.lockDataForImport handle openContainers = some s') :
    Inv s' ∧ s'.excess = s.excess := by
  simp only [lockDataForImport, Option.bind_eq_bind, Option.bind_eq_some_iff] at h
  obtain ⟨p, hp, n, hn, h⟩ := h
  split at h
  · rename_i hactive
    cases h
    refine ⟨?_, ?_⟩
    · refine hs.modifyNode p (f := .setStatus .dataLocked) (fun _ => rfl)
        (fun _ => rfl) (fun _ => rfl) (fun _ => rfl) ?_ ?_
      · intro m hm
        have hok := hs.statuses.node hm
        have hmn : m = n := Option.some.inj (hm.symm.trans hn)
        subst hmn
        refine ⟨?_, hok.directory, ?_, ?_⟩
        · intro hnone
          have := (hok.cleared hnone).1
          rw [hactive.1] at this
          cases this
        · intro hne
          have := hok.branched hne
          rw [hactive.1] at this
          rcases this with this | this <;> cases this
        · intro hnone
          have := hok.rootCommitted hnone
          rw [hactive.1] at this
          cases this
      · intro m _ hst
        cases hst
    · have hexcess := excess_setStatus hn .dataLocked s.activeSnapshots
      simp only [hactive.1, openShare] at hexcess
      exact hexcess.trans (by simp [excess])
  · cases h
    exact ⟨hs, rfl⟩

theorem setSnapshotMetadata_spec {s s' : MemoryStore D R} (hs : Inv s) {handle : Nat}
    {metadata : String} (h : s.setSnapshotMetadata handle metadata = some s') :
    Inv s' ∧ s'.excess = s.excess := by
  simp only [setSnapshotMetadata, Option.bind_eq_bind, Option.bind_eq_some_iff] at h
  obtain ⟨p, hp, n, hn, h⟩ := h
  split at h
  · cases h
    refine ⟨?_, ?_⟩
    · refine hs.modifyNode p (f := .setMetadata metadata) (fun _ => rfl) (fun _ => rfl)
        (fun _ => rfl) (fun _ => rfl) ?_ ?_
      · intro m hm
        have hok := hs.statuses.node hm
        exact ⟨hok.cleared, hok.directory, hok.branched, hok.rootCommitted⟩
      · exact fun _ _ h => h
    · change s.activeSnapshots - _ = s.activeSnapshots - _
      congr 2
      exact openCount_modifyNode_of_status p fun _ => rfl
  · cases h
    exact ⟨hs, rfl⟩

theorem setMaster_spec {s s' : MemoryStore D R} (hs : Inv s) {id : Nat}
    (h : s.setMaster id = some s') : Inv s' ∧ s'.excess = s.excess := by
  unfold setMaster at h
  split at h
  · cases h
    exact ⟨hs, rfl⟩
  · rename_i p hp
    simp only [Option.bind_eq_bind, Option.bind_eq_some_iff] at h
    obtain ⟨n, hn, h⟩ := h
    split at h
    · rename_i hst
      cases h
      refine ⟨⟨hs.shape.of_history_eq rfl rfl rfl rfl,
        ⟨hs.statuses.node, ⟨(hs.shape.mapBound hp).2, ?_⟩, hs.statuses.branches⟩,
        ⟨hs.handles.live, hs.handles.counted⟩⟩, rfl⟩
      intro m hm
      have hmn : m = n := Option.some.inj (hm.symm.trans hn)
      subst hmn
      rcases hst with hst | hst <;> rw [hst] <;> decide
    · cases h
      exact ⟨hs, rfl⟩

theorem mem_insertBranch {branches : List (String × Nat)} {name : String} {p : Nat}
    {b : String × Nat} (hmem : b ∈ insertBranch branches name p) :
    b = (name, p) ∨ b ∈ branches := by
  rcases List.mem_cons.mp hmem with heq | hrest
  · exact Or.inl heq
  · exact Or.inr (List.mem_of_mem_filter hrest)

theorem setBranch_spec {s s' : MemoryStore D R} (hs : Inv s) {name : String} {id : Nat}
    (h : s.setBranch name id = some s') : Inv s' ∧ s'.excess = s.excess := by
  unfold setBranch at h
  split at h
  · cases h
    exact ⟨hs, rfl⟩
  · rename_i p hp
    simp only [Option.bind_eq_bind, Option.bind_eq_some_iff] at h
    obtain ⟨n, hn, h⟩ := h
    split at h
    · rename_i hst
      cases h
      refine ⟨⟨hs.shape.of_history_eq rfl rfl rfl rfl,
        ⟨hs.statuses.node, hs.statuses.master, ?_⟩,
        ⟨hs.handles.live, hs.handles.counted⟩⟩, rfl⟩
      intro b hb
      rcases mem_insertBranch hb with rfl | hmem
      · refine ⟨(hs.shape.mapBound hp).2, ?_⟩
        intro m hm
        have hmn : m = n := Option.some.inj (hm.symm.trans hn)
        subst hmn
        rcases hst with hst | hst <;> rw [hst] <;> decide
      · exact hs.statuses.branches hmem
    · cases h
      exact ⟨hs, rfl⟩

theorem removeNamedBranch_spec {s s' : MemoryStore D R} (hs : Inv s) {name : String}
    (h : s.removeNamedBranch name = some s') : Inv s' ∧ s'.excess = s.excess := by
  cases h
  exact ⟨⟨hs.shape.of_history_eq rfl rfl rfl rfl,
    ⟨hs.statuses.node, hs.statuses.master,
      fun hb => hs.statuses.branches (List.mem_of_mem_filter hb)⟩,
    ⟨hs.handles.live, hs.handles.counted⟩⟩, rfl⟩

end Memoria.MemoryStore

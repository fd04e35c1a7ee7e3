import Memoria.Lib.Run
import Memoria.Proof.HistoryTree
import Memoria.SnapshotData

/-!
# Nodes that come and go

The calls that change the tree itself, and with them the invariant of whole runs.
-/

namespace Memoria.MemoryStore

open Lib

variable {D R : Type}

theorem find_spec {L : DataLayer D R} {s s' : MemoryStore D R} (hs : Inv s) {id : Nat}
    (h : s.find L id = some s') : Inv s' ∧ s'.excess = s.excess := by
  unfold find at h
  split at h
  · cases h
    exact ⟨hs, rfl⟩
  · simp only [Option.bind_eq_bind, Option.bind_eq_some_iff] at h
    obtain ⟨n, hn, h⟩ := h
    split at h
    · rename_i hst
      exact hs.makeSnapshot hn (by rw [hst]; decide) h
    · cases h
      exact ⟨hs, rfl⟩

theorem findBranch_spec {L : DataLayer D R} {s s' : MemoryStore D R} (hs : Inv s) {name : String}
    (h : s.findBranch L name = some s') : Inv s' ∧ s'.excess = s.excess := by
  unfold findBranch at h
  split at h
  · cases h
    exact ⟨hs, rfl⟩
  · simp only [Option.bind_eq_bind, Option.bind_eq_some_iff] at h
    obtain ⟨n, hn, h⟩ := h
    split at h
    · rename_i hst
      exact hs.makeSnapshot hn (by rw [hst]; decide) h
    · split at h
      · rename_i hst
        exact hs.makeSnapshot hn (by rw [hst.1]; decide) h
      · cases h
        exact ⟨hs, rfl⟩

/-- A call that opens the node at `p` reads it first. -/
theorem exists_read_of_makeSnapshot {L : DataLayer D R} {s s' : MemoryStore D R} {p : Nat}
    (h : makeSnapshot L s p = some s') : ∃ n, s.history.read p = some n := by
  simp only [makeSnapshot, initTree, Option.bind_eq_bind, Option.bind_eq_some_iff] at h
  obtain ⟨_, ⟨n, hn, _⟩, _⟩ := h
  exact ⟨n, hn⟩

theorem openMaster_spec {L : DataLayer D R} {s s' : MemoryStore D R} (hs : Inv s)
    (h : s.openMaster L = some s') : Inv s' ∧ s'.excess = s.excess := by
  obtain ⟨n, hn⟩ := exists_read_of_makeSnapshot h
  exact hs.makeSnapshot hn (hs.statuses.master.2 hn) h

theorem openParent_spec {L : DataLayer D R} {s s' : MemoryStore D R} (hs : Inv s) {handle : Nat}
    (h : s.openParent L handle = some s') : Inv s' ∧ s'.excess = s.excess := by
  simp only [openParent, Option.bind_eq_bind, Option.bind_eq_some_iff] at h
  obtain ⟨p, hp, n, hn, h⟩ := h
  split at h
  · cases h
    exact ⟨hs, rfl⟩
  · rename_i q hq
    obtain ⟨-, m, hm, hmem⟩ := hs.shape.parentLive hn hq
    exact hs.makeSnapshot hm ((hs.statuses.node hm).ne_active_of_mem hmem) h

theorem committedFrom_committed {s : MemoryStore D R} {fuel : Nat} {o : Option Nat} {q : Nat}
    (h : s.committedFrom fuel o = some (some q)) :
    ∃ n, s.history.read q = some n ∧ n.status = .committed := by
  induction fuel generalizing o with
  | zero => cases o <;> simp [committedFrom] at h
  | succ fuel ih =>
      cases o with
      | none => simp [committedFrom] at h
      | some p =>
          simp only [committedFrom, Option.bind_eq_bind, Option.bind_eq_some_iff] at h
          obtain ⟨n, hn, h⟩ := h
          split at h
          · rename_i hst
            cases h
            exact ⟨n, hn, hst⟩
          · exact ih h

/-- The walk to a committed ancestor ends at the root of the tree at the latest. -/
theorem committedFrom_ne_none {s : MemoryStore D R} (hs : Inv s) {fuel p : Nat}
    {n : HistoryNode R} (hread : s.history.read p = some n) :
    s.committedFrom fuel (some p) ≠ some none := by
  induction fuel generalizing p n with
  | zero => simp [committedFrom]
  | succ fuel ih =>
      intro h
      simp only [committedFrom, hread, Option.bind_eq_bind, Option.bind_some] at h
      split at h
      · cases h
      · rename_i hst
        cases hparent : n.parent with
        | none => exact hst ((hs.statuses.node hread).rootCommitted hparent)
        | some q =>
            rw [hparent] at h
            obtain ⟨-, m, hm, -⟩ := hs.shape.parentLive hread hparent
            exact ih hm h

theorem committedFrom_le {s : MemoryStore D R} (hs : Inv s) {fuel p q : Nat}
    (h : s.committedFrom fuel (some p) = some (some q)) : q ≤ p := by
  induction fuel generalizing p with
  | zero => cases h
  | succ fuel ih =>
      simp only [committedFrom, Option.bind_eq_bind, Option.bind_eq_some_iff] at h
      obtain ⟨n, hn, h⟩ := h
      split at h
      · cases h
        exact le_rfl
      · cases hparent : n.parent with
        | none =>
            rw [hparent] at h
            cases fuel <;> cases h
        | some r =>
            rw [hparent] at h
            have hle := ih h
            have hlt := (hs.shape.parentLive hn hparent).1
            omega

/-- The tables after `adjust_named_references`: every reference to the node goes to one committed
node. -/
theorem adjustNamedReferences_eq {s s' : MemoryStore D R} (hs : Inv s) {p : Nat}
    {n : HistoryNode R} (hread : s.history.read p = some n) (hparent : n.parent.isSome)
    (h : s.adjustNamedReferences p = some s') :
    ∃ q m, q < p ∧ s.history.read q = some m ∧ m.status = .committed ∧
      s' = { s with
        namedBranches := s.namedBranches.map fun branch =>
          if branch.2 = p then (branch.1, q) else branch
        master := if s.master = p then q else s.master } := by
  simp only [adjustNamedReferences, hread, Option.bind_eq_bind, Option.bind_some,
    Option.bind_eq_some_iff] at h
  obtain ⟨found, hfound, h⟩ := h
  cases found with
  | none =>
      obtain ⟨q, hq⟩ := Option.isSome_iff_exists.mp hparent
      obtain ⟨-, m, hm, -⟩ := hs.shape.parentLive hread hq
      rw [hq] at hfound
      exact absurd hfound (committedFrom_ne_none hs hm)
  | some q =>
      obtain ⟨m, hm, hst⟩ := committedFrom_committed hfound
      obtain ⟨r, hr⟩ := Option.isSome_iff_exists.mp hparent
      have hlt := (hs.shape.parentLive hread hr).1
      rw [hr] at hfound
      have hle := committedFrom_le hs hfound
      cases h
      exact ⟨q, m, by omega, hm, hst, rfl⟩

theorem Inv.redirect {s : MemoryStore D R} (hs : Inv s) {p q : Nat} {m : HistoryNode R}
    (hread : s.history.read q = some m) (hst : m.status = .committed) :
    Inv { s with
      namedBranches := s.namedBranches.map fun branch =>
        if branch.2 = p then (branch.1, q) else branch
      master := if s.master = p then q else s.master } := by
  have hq : q < s.history.next ∧ ∀ {n}, s.history.read q = some n → n.status ≠ .active := by
    refine ⟨Heap.lt_next_of_read hread, ?_⟩
    intro n hn
    have hnm : n = m := Option.some.inj (hn.symm.trans hread)
    rw [hnm, hst]
    decide
  refine ⟨hs.shape.of_history_eq rfl rfl rfl rfl, ⟨hs.statuses.node, ?_, ?_⟩,
    ⟨hs.handles.live, hs.handles.counted⟩⟩
  · change (if s.master = p then q else s.master) < _ ∧ ∀ {n}, s.history.read
      (if s.master = p then q else s.master) = some n → n.status ≠ .active
    split
    · exact hq
    · exact hs.statuses.master
  · intro b hb
    obtain ⟨a, ha, rfl⟩ := List.mem_map.mp hb
    split
    · exact hq
    · exact hs.statuses.branches ha

/-- Dropping the snapshot at `p` without adjusting the tables. -/
theorem Inv.setDropped {s : MemoryStore D R} (hs : Inv s) {p : Nat} {n : HistoryNode R}
    (hread : s.history.read p = some n) (hparent : n.parent.isSome) :
    Inv (s.modifyNode p (.setStatus .dropped)) := by
  refine hs.modifyNode p (f := .setStatus .dropped) (fun _ => rfl) (fun _ => rfl) (fun _ => rfl)
    (fun _ => rfl) ?_ ?_
  · intro m hm
    have hok := hs.statuses.node hm
    have hmn : m = n := Option.some.inj (hm.symm.trans hread)
    subst hmn
    refine ⟨fun hnone => ⟨rfl, (hok.cleared hnone).2⟩, hok.directory, fun _ => Or.inr rfl, ?_⟩
    intro hnone
    change m.parent = none at hnone
    rw [hnone] at hparent
    cases hparent
  · intro m _ hst
    cases hst

def DropsLocked (s : MemoryStore D R) (handle : Nat) : Prop :=
  ∃ p n, s.handles.read handle = some p ∧ s.history.read p = some n ∧ n.parent.isSome ∧
    n.status = .dataLocked

/-- A drop of a locked snapshot leaves the counter one too high, and any other drop leaves it right.
-/
theorem drop_spec {s s' : MemoryStore D R} (hs : Inv s) {handle : Nat}
    (h : s.drop handle = some s') :
    Inv s' ∧ (DropsLocked s handle → s'.excess = s.excess + 1) ∧
      (¬ DropsLocked s handle → s'.excess = s.excess) := by
  simp only [drop, Option.bind_eq_bind, Option.bind_eq_some_iff] at h
  obtain ⟨p, hp, n, hn, h⟩ := h
  have hlocked : DropsLocked s handle ↔ n.parent.isSome ∧ n.status = .dataLocked := by
    constructor
    · rintro ⟨q, m, hq, hm, hrest⟩
      have hqp : q = p := Option.some.inj (hq.symm.trans hp)
      subst hqp
      have hmn : m = n := Option.some.inj (hm.symm.trans hn)
      subst hmn
      exact hrest
    · exact fun hrest => ⟨p, n, hp, hn, hrest⟩
  rw [hlocked]
  split at h
  · rename_i hparent
    simp only [Option.bind_eq_some_iff, Option.some.injEq] at h
    obtain ⟨t, ht, rfl⟩ := h
    -- The tables may have been redirected; the nodes and the counter are still those of `s`.
    have hsame : Inv t ∧ t.history = s.history ∧ t.activeSnapshots = s.activeSnapshots := by
      unfold adjustForDrop at ht
      split at ht
      · obtain ⟨q, m, -, hm, hst, rfl⟩ := adjustNamedReferences_eq hs hn hparent ht
        exact ⟨hs.redirect hm hst, rfl, rfl⟩
      · cases ht
        exact ⟨hs, rfl, rfl⟩
    obtain ⟨hinv, hhistory, hcounter⟩ := hsame
    have hread : t.history.read p = some n := by rw [hhistory, hn]
    have hcount : t.openCount = s.openCount := by unfold openCount; rw [hhistory]
    refine ⟨(hinv.setDropped hread hparent).of_counter _ _, ?_, ?_⟩
    · rintro ⟨-, hst⟩
      rw [excess_setStatus hread, hcount, hcounter, hst]
      simp [openShare, excess]
    · intro hne
      rw [excess_setStatus hread, hcount, hcounter]
      cases hst : n.status with
      | active => simp [openShare, excess]; omega
      | committed => simp [openShare, excess]
      | dropped => simp [openShare, excess]
      | dataLocked => exact absurd ⟨hparent, hst⟩ hne
  · rename_i hparent
    cases h
    exact ⟨hs, fun hboth => absurd hboth.1 hparent, fun _ => rfl⟩

theorem branch_cases {L : DataLayer D R} {s s' : MemoryStore D R} (hs : Inv s) {handle : Nat}
    (h : s.branch L handle = some s') :
    s' = s ∨ ∃ p n c, s.history.read p = some n ∧ n.status = .committed ∧
      Grafted s s' p c := by
  simp only [branch, Option.bind_eq_bind, Option.bind_eq_some_iff] at h
  obtain ⟨p, -, n, hn, h⟩ := h
  split at h
  · rename_i hst
    have hp := Heap.lt_next_of_read hn
    have hpne : p ≠ s.history.next := by omega
    have hnep : s.history.next ≠ p := by omega
    simp only [makeSnapshot, initTree, modifyNode, Heap.read_modify, Heap.read_alloc, hn, hpne,
      hnep, if_true, if_false, Option.bind_eq_bind, Option.bind_some, Option.map_some,
      HistoryNode.addChild, hst, guard, Option.bind_eq_some_iff, Option.some.injEq] at h
    obtain ⟨t, ⟨-, -, target, htarget, cloned, -, rfl⟩, m, hm, id, hid, rfl⟩ := h
    simp only [Heap.read_modify, Heap.read_alloc, hnep, if_true, if_false, Option.map_some,
      Option.some.injEq] at hm
    subst hm
    have hnid : n.rootId.isSome := by
      rw [(hs.statuses.node hn).directory, htarget]
      rfl
    let c : HistoryNode R :=
      { parent := some p, children := [], root := some cloned.2, rootId := n.rootId,
        status := .active, snapshotId := s.nextSnapshotId, references := 1, metadata := "" }
    refine Or.inr ⟨p, n, c, hn, hst, ?_, rfl, rfl, rfl, rfl, rfl, rfl, rfl, rfl, rfl, rfl, rfl, rfl,
      hnid, rfl⟩
    refine Heap.ext_read rfl ?_
    intro r
    simp only [Heap.read_modify, Heap.read_alloc, Heap.next_modify]
    by_cases hr : r = s.history.next
    · subst hr
      simp [hnep, c, HistoryNode.setRoot, HistoryNode.ref]
    · simp [hr]
  · cases h
    exact Or.inl rfl

theorem branch_spec {L : DataLayer D R} {s s' : MemoryStore D R} (hs : Inv s) {handle : Nat}
    (h : s.branch L handle = some s') : Inv s' ∧ s'.excess = s.excess := by
  rcases branch_cases hs h with rfl | ⟨p, n, c, hn, hst, hgraft⟩
  · exact ⟨hs, rfl⟩
  · exact ⟨hs.graft hn hst hgraft, excess_graft hgraft⟩

/-- One handle less, with the snapshot itself left as it is. -/
theorem Inv.unref {s : MemoryStore D R} (hs : Inv s) {handle p : Nat}
    (hhandle : s.handles.read handle = some p) :
    Inv { s.modifyNode p .unref with handles := s.handles.free handle } := by
  refine ⟨?_, ?_, hs.handles.close hhandle⟩
  · exact (hs.shape.modifyNode p (f := .unref) (fun _ => rfl) (fun _ => rfl)
      (fun _ => rfl)).of_history_eq rfl rfl rfl rfl
  · have hmod := hs.statuses.modifyNode p (f := .unref)
      (fun m hm => by
        have hok := hs.statuses.node hm
        refine ⟨?_, hok.directory, hok.branched, hok.rootCommitted⟩
        intro hnone
        obtain ⟨hst, hrefs⟩ := hok.cleared hnone
        exact ⟨hst, by simp [hrefs]⟩)
      (fun _ _ h => h)
    exact ⟨hmod.node, hmod.master, hmod.branches⟩

theorem excess_unref (s : MemoryStore D R) (p : Nat) (handles : Heap Nat) :
    ({ s.modifyNode p .unref with handles := handles } : MemoryStore D R).excess = s.excess := by
  change s.activeSnapshots - _ = s.activeSnapshots - _
  congr 2
  exact openCount_modifyNode_of_status p fun _ => rfl

theorem doDrop_eq {L : DataLayer D R} {s s' : MemoryStore D R} {p : Nat}
    (h : doDrop L s p = some s') :
    ∃ data, s' = { s with data := data }.modifyNode p (.setRoot none none) := by
  simp only [doDrop, Option.bind_eq_bind, Option.bind_eq_some_iff, Option.some.injEq] at h
  obtain ⟨-, -, -, -, data, -, rfl⟩ := h
  exact ⟨data, rfl⟩

/-- The last handle of an active snapshot takes the node with it. -/
theorem forget_spliced {L : DataLayer D R} {s t s' : MemoryStore D R} (hs : Inv s) {p : Nat}
    {n : HistoryNode R} (hread : s.history.read p = some n) (hst : n.status = .active)
    (hdrop : doDrop L { s with activeSnapshots := s.activeSnapshots - 1 } p = some t)
    (h : t.forgetSnapshot p = some s') :
    ∃ q, n.parent = some q ∧ Spliced s s' p q n ∧ s'.activeSnapshots = s.activeSnapshots - 1 ∧
      s'.snapshotMap = fun id => if id = n.snapshotId then none else s.snapshotMap id := by
  obtain ⟨data, ht⟩ := doDrop_eq hdrop
  have hok := hs.statuses.node hread
  have hchildren : n.children = [] := by
    by_contra hne
    rcases hok.branched hne with hst' | hst' <;> rw [hst] at hst' <;> cases hst'
  obtain ⟨q, hq⟩ := hok.exists_parent (by rw [hst]; decide)
  have hhistory : t.history = s.history.modify p (.setRoot none none) := by rw [ht]; rfl
  have hread' : t.history.read p = some (n.setRoot none none) := by
    rw [hhistory, Heap.read_modify_self, hread]
    rfl
  obtain ⟨⟨hnext, hreads, htree, hmaster, hbranches, hhandles, hids, hmap⟩, hcounter, herased⟩ :=
    forgetSnapshot_spliced hread' hq hchildren h
  rw [hhistory] at hnext hreads
  subst ht
  refine ⟨q, hq, ⟨hnext, ?_, htree, hmaster, hbranches, hhandles, hids, hmap⟩, hcounter, herased⟩
  -- Seen from `s`, the cleared root of the node does not show: the node is gone.
  intro r
  rw [hreads]
  by_cases hrp : r = p
  · rw [if_pos hrp, if_pos hrp]
  · rw [if_neg hrp, if_neg hrp, Heap.read_modify_of_ne hrp]
    rfl

theorem forget_spec {L : DataLayer D R} {s t s' : MemoryStore D R} (hs : Inv s) {p : Nat}
    {n : HistoryNode R} (hread : s.history.read p = some n) (hst : n.status = .active)
    (hrefs : n.references = 0)
    (hdrop : doDrop L { s with activeSnapshots := s.activeSnapshots - 1 } p = some t)
    (h : t.forgetSnapshot p = some s') : Inv s' ∧ s'.excess = s.excess := by
  obtain ⟨q, hq, hspliced, hcounter, -⟩ := forget_spliced hs hread hst hdrop h
  refine ⟨hs.splice hread hq hrefs hspliced, ?_⟩
  have hcount := openCount_splice hread hspliced
  rw [hst] at hcount
  simp only [openShare] at hcount
  simp only [excess, hcounter]
  omega

/-- The last handle of a dropped snapshot takes its data with it. -/
theorem clear_spec {L : DataLayer D R} {s s' : MemoryStore D R} (hs : Inv s) {p : Nat}
    {n : HistoryNode R} (hread : s.history.read p = some n) (hst : n.status = .dropped)
    (hrefs : n.references = 0) (h : doDrop L s p = some s') :
    Inv s' ∧ s'.excess = s.excess := by
  obtain ⟨data, rfl⟩ := doDrop_eq h
  refine ⟨?_, ?_⟩
  · refine (hs.of_counter s.activeSnapshots data).modifyNode p (f := .setRoot none none)
      (fun _ => rfl) (fun _ => rfl) (fun _ => rfl) (fun _ => rfl) ?_ ?_
    · intro m hm
      have hok := hs.statuses.node hm
      have hmn : m = n := Option.some.inj (hm.symm.trans hread)
      subst hmn
      exact ⟨fun _ => ⟨hst, hrefs⟩, rfl, hok.branched, hok.rootCommitted⟩
    · exact fun _ _ h => h
  · change s.activeSnapshots - _ = s.activeSnapshots - _
    congr 2
    exact openCount_modifyNode_of_status p fun _ => rfl

theorem release_spec {L : DataLayer D R} {s s' : MemoryStore D R} (hs : Inv s) {handle : Nat}
    (h : s.release L handle = some s') : Inv s' ∧ s'.excess = s.excess := by
  simp only [release, Option.bind_eq_bind, Option.bind_eq_some_iff] at h
  obtain ⟨p, hp, n, hn, h⟩ := h
  have hinv := hs.unref hp
  have hexcess := excess_unref s p (s.handles.free handle)
  have hread : ({ s.modifyNode p .unref with handles := s.handles.free handle } :
      MemoryStore D R).history.read p = some n.unref := by
    have := read_modifyNode_of_read p .unref hn
    rwa [if_pos rfl] at this
  split at h
  · rename_i hlast
    have hrefs : n.unref.references = 0 := by simp [hlast]
    split at h
    · rename_i hst
      simp only [Option.bind_eq_some_iff] at h
      obtain ⟨t, ht, h⟩ := h
      obtain ⟨hinv', hexcess'⟩ := forget_spec hinv hread hst hrefs ht h
      exact ⟨hinv', hexcess'.trans hexcess⟩
    · split at h
      · rename_i hst
        obtain ⟨hinv', hexcess'⟩ := clear_spec hinv hread hst hrefs h
        exact ⟨hinv', hexcess'.trans hexcess⟩
      · cases h
        exact ⟨hinv, hexcess⟩
  · cases h
    exact ⟨hinv, hexcess⟩

/-- A node without a root is not active, so its removal changes no counter. -/
theorem doRemoveHistoryNode_spec {s s' : MemoryStore D R} (hs : Inv s) {p : Nat}
    {n : HistoryNode R} (hread : s.history.read p = some n) (hroot : n.root = none)
    (h : s.doRemoveHistoryNode p = some s') : Inv s' ∧ s'.excess = s.excess := by
  have hok := hs.statuses.node hread
  obtain ⟨hst, hrefs⟩ := hok.cleared hroot
  obtain ⟨q, hq⟩ := hok.exists_parent (by rw [hst]; decide)
  rcases doRemoveHistoryNode_cases hs hread hq h with rfl | ⟨hspliced, hcounter⟩
  · exact ⟨hs, rfl⟩
  · refine ⟨hs.splice hread hq hrefs hspliced, ?_⟩
    have hcount := openCount_splice hread hspliced
    rw [hst] at hcount
    simp only [openShare] at hcount
    simp only [excess, hcounter]
    omega

/-- Induction on the fuel: the nodes below are packed first. -/
theorem doPackNode_spec {branches : List Nat} {fuel : Nat} {s s' : MemoryStore D R} (hs : Inv s)
    {p : Nat} (h : doPackNode branches fuel s p = some s') : Inv s' ∧ s'.excess = s.excess := by
  induction fuel generalizing s s' p with
  | zero => cases h
  | succ fuel ih =>
      simp only [doPackNode, Option.bind_eq_bind, Option.bind_eq_some_iff] at h
      obtain ⟨n, -, t, ht, m, hm, h⟩ := h
      have hbelow : Inv t ∧ t.excess = s.excess := by
        refine foldlM_keeps (I := fun u => Inv u ∧ u.excess = s.excess) ?_ ⟨hs, rfl⟩ ht
        rintro u c u' ⟨hu, hexcess⟩ hu'
        obtain ⟨hinv, hexcess'⟩ := ih hu hu'
        exact ⟨hinv, hexcess'.trans hexcess⟩
      split at h
      · rename_i hcond
        obtain ⟨hinv, hexcess⟩ :=
          doRemoveHistoryNode_spec hbelow.1 hm (Option.isNone_iff_eq_none.mp hcond.1) h
        exact ⟨hinv, hexcess.trans hbelow.2⟩
      · cases h
        exact hbelow

theorem doPackBranch_spec {s s' : MemoryStore D R} (hs : Inv s) {b : String × Nat}
    (h : s.doPackBranch b = some s') : Inv s' ∧ s'.excess = s.excess := by
  simp only [doPackBranch, Option.bind_eq_bind, Option.bind_eq_some_iff] at h
  obtain ⟨n, hn, h⟩ := h
  split at h
  · rename_i hcond
    exact doRemoveHistoryNode_spec hs hn (Option.isNone_iff_eq_none.mp hcond.1) h
  · cases h
    exact ⟨hs, rfl⟩

/-- Packing does not change which snapshots are active. -/
theorem pack_spec {s s' : MemoryStore D R} (hs : Inv s) (h : s.pack = some s') :
    Inv s' ∧ s'.excess = s.excess := by
  simp only [pack, doPack, Option.bind_eq_bind, Option.bind_eq_some_iff] at h
  obtain ⟨t, ht, h⟩ := h
  obtain ⟨hinv, hexcess⟩ := doPackNode_spec hs ht
  refine foldlM_keeps (I := fun u => Inv u ∧ u.excess = s.excess) ?_ ⟨hinv, hexcess⟩ h
  rintro u b u' ⟨hu, hexcess⟩ hu'
  obtain ⟨hinv', hexcess'⟩ := doPackBranch_spec hu hu'
  exact ⟨hinv', hexcess'.trans hexcess⟩

def StepDropsLocked (s : MemoryStore D R) : Op → Prop
  | .drop handle => DropsLocked s handle
  | _ => False

/-- Only the drop of a locked snapshot changes by how much the counter is too high. -/
theorem step_spec {L : DataLayer D R} {s s' : MemoryStore D R} (hs : Inv s) {op : Op}
    (h : step L s op = some s') :
    Inv s' ∧ (StepDropsLocked s op → s'.excess = s.excess + 1) ∧
      (¬ StepDropsLocked s op → s'.excess = s.excess) := by
  have hother : Inv s' ∧ s'.excess = s.excess → ¬ StepDropsLocked s op →
      Inv s' ∧ (StepDropsLocked s op → s'.excess = s.excess + 1) ∧
        (¬ StepDropsLocked s op → s'.excess = s.excess) :=
    fun hspec hno => ⟨hspec.1, fun hyes => absurd hyes hno, fun _ => hspec.2⟩
  cases op with
  | branch handle => exact hother (branch_spec hs h) not_false
  | commit handle flushed => exact hother (commit_spec hs h) not_false
  | drop handle => exact drop_spec hs h
  | lockDataForImport handle openContainers =>
      exact hother (lockDataForImport_spec hs h) not_false
  | setSnapshotMetadata handle metadata =>
      exact hother (setSnapshotMetadata_spec hs h) not_false
  | release handle => exact hother (release_spec hs h) not_false
  | find id => exact hother (find_spec hs h) not_false
  | findBranch name => exact hother (findBranch_spec hs h) not_false
  | openMaster => exact hother (openMaster_spec hs h) not_false
  | openParent handle => exact hother (openParent_spec hs h) not_false
  | setMaster id => exact hother (setMaster_spec hs h) not_false
  | setBranch name id => exact hother (setBranch_spec hs h) not_false
  | removeNamedBranch name => exact hother (removeNamedBranch_spec hs h) not_false
  | pack => exact hother (pack_spec hs h) not_false

/-- The counter is what it counts. In particular it is zero, and `store` may go on, once every
snapshot is committed or dropped. -/
def ActiveCounted (s : MemoryStore D R) : Prop :=
  s.activeSnapshots = s.openCount ∧
    ((∀ p n, s.history.read p = some n → n.status = .committed ∨ n.status = .dropped) →
      s.activeSnapshots = 0)

theorem activeCounted_iff (s : MemoryStore D R) : ActiveCounted s ↔ s.excess = 0 := by
  unfold ActiveCounted excess
  constructor
  · rintro ⟨hcount, -⟩
    omega
  · intro hexcess
    refine ⟨by omega, ?_⟩
    intro hclosed
    have hzero : s.openCount = 0 := by
      refine Heap.sum_eq_zero.mpr ?_
      intro p n hread
      rcases hclosed p n hread with hst | hst <;> rw [hst] <;> rfl
    omega

/-- A locked snapshot can be dropped: nothing on the way is undefined. -/
theorem exists_step_of_dropsLocked {L : DataLayer D R} {s : MemoryStore D R} {op : Op}
    (h : StepDropsLocked s op) : ∃ s', step L s op = some s' := by
  cases op with
  | drop handle =>
      obtain ⟨p, n, hp, hn, hparent, hst⟩ := h
      simp [step, drop, hp, hn, hparent, hst, adjustForDrop]
  | _ => exact absurd h not_false

/-- Over every run of the store: the counter of active snapshots is right in every state exactly
when no step of the run drops a locked snapshot. -/
theorem activeSnapshots_counted_iff (L : DataLayer D R) (ops : List Op) :
    EveryState (step L) ActiveCounted (create L) ops ↔
      EveryStep (step L) (fun s op => ¬ StepDropsLocked s op) (create L) ops := by
  have hcreate : (create L).excess = 0 := rfl
  constructor
  · refine EveryStep.of_everyState (I := Inv) ?_ ?_ (create_inv L)
    · exact fun s op s' hs h => (step_spec hs h).1
    · intro s op hs hcounted hdrops
      rw [not_not] at hdrops
      obtain ⟨s', hs'⟩ := exists_step_of_dropsLocked (L := L) hdrops
      refine ⟨s', hs', ?_⟩
      rw [activeCounted_iff] at hcounted ⊢
      rw [(step_spec hs hs').2.1 hdrops, hcounted]
      decide
  · refine EveryState.of_invariant (I := fun s => Inv s ∧ s.excess = 0) ?_ ?_
      ⟨create_inv L, hcreate⟩
    · rintro s op s' ⟨hs, hexcess⟩ hno h
      obtain ⟨hinv, -, hsame⟩ := step_spec hs h
      exact ⟨hinv, (hsame hno).trans hexcess⟩
    · exact fun s hs => (activeCounted_iff s).mpr hs.2

/-- A branch that is locked and then dropped stays in the counter for good. -/
theorem dropped_locked_counted :
    ∃ s, run TreeData.layer (create TreeData.layer)
        [.openMaster, .branch 0, .lockDataForImport 1 false, .drop 1] = some s ∧
      ¬ ActiveCounted s ∧ s.activeSnapshots = 1 ∧ s.openCount = 0 := by
  have hrun : (run TreeData.layer (create TreeData.layer)
      [.openMaster, .branch 0, .lockDataForImport 1 false, .drop 1]).map
        (fun s => (s.activeSnapshots, s.openCount)) = some (1, 0) := by decide +kernel
  obtain ⟨s, hs, hcounts⟩ := Option.map_eq_some_iff.mp hrun
  obtain ⟨hactive, hopen⟩ := Prod.mk.inj hcounts
  refine ⟨s, hs, ?_, hactive, hopen⟩
  rintro ⟨hcounted, -⟩
  rw [hactive, hopen] at hcounted
  cases hcounted

end Memoria.MemoryStore

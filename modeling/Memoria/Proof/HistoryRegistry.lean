import Memoria.Proof.HistoryRuns

/-!
# Referential integrity of the registry

The three tables of the store point into the history tree. Two calls can break this: `pack` deletes
nodes and looks at no table, and `drop` redirects the references to a committed snapshot but not
those to a locked one. Every other call, and these two where that does not show, keep the tables
whole.
-/

namespace Memoria.MemoryStore

open Lib

variable {D R : Type}

inductive InTree (s : MemoryStore D R) : Nat → Prop
  | root : InTree s s.historyTree
  | child {p c : Nat} {n : HistoryNode R} : InTree s p → s.history.read p = some n →
      c ∈ n.children → InTree s c

def Designates (s : MemoryStore D R) (p : Nat) : Prop :=
  InTree s p ∧ ∃ n, s.history.read p = some n ∧ n.status ≠ .dropped

structure RegistryOk (s : MemoryStore D R) : Prop where
  map : ∀ id p, s.snapshotMap id = some p → InTree s p ∧ ∃ n, s.history.read p = some n
  branches : ∀ b ∈ s.namedBranches, Designates s b.2
  master : Designates s s.master

theorem inTree_of_read {s : MemoryStore D R} (hs : Inv s) {p : Nat} {n : HistoryNode R}
    (hread : s.history.read p = some n) : InTree s p := by
  induction p using Nat.strong_induction_on generalizing n with
  | _ p ih =>
      cases hparent : n.parent with
      | none =>
          rw [hs.shape.rootOnly hread hparent]
          exact .root
      | some q =>
          obtain ⟨hlt, m, hm, hmem⟩ := hs.shape.parentLive hread hparent
          exact .child (ih q hlt hm) hm hmem

structure Registry (s : MemoryStore D R) : Prop where
  map : ∀ {id p}, s.snapshotMap id = some p →
    ∃ n, s.history.read p = some n ∧ n.snapshotId = id
  branches : ∀ {b}, b ∈ s.namedBranches → ∃ n, s.history.read b.2 = some n ∧ n.status ≠ .dropped
  master : ∃ n, s.history.read s.master = some n ∧ n.status ≠ .dropped

theorem Registry.ok {s : MemoryStore D R} (hs : Inv s) (hr : Registry s) : RegistryOk s := by
  refine ⟨?_, ?_, ?_⟩
  · intro id p hid
    obtain ⟨n, hn, -⟩ := hr.map hid
    exact ⟨inTree_of_read hs hn, n, hn⟩
  · intro b hb
    obtain ⟨n, hn, hst⟩ := hr.branches hb
    exact ⟨inTree_of_read hs hn, n, hn, hst⟩
  · obtain ⟨n, hn, hst⟩ := hr.master
    exact ⟨inTree_of_read hs hn, n, hn, hst⟩

def Kept (s : MemoryStore D R) (p : Nat) : Prop :=
  ∃ n, s.history.read p = some n ∧ n.status ≠ .dropped

/-- A write to one node that keeps its id, and drops it only if no table designates it then. -/
theorem Registry.modify {s s' : MemoryStore D R} (hr : Registry s) {p : Nat}
    {f : HistoryNode R → HistoryNode R} (hhistory : s'.history = s.history.modify p f)
    (hmap : s'.snapshotMap = s.snapshotMap) (hid : ∀ n, (f n).snapshotId = n.snapshotId)
    (hst : ∀ n, s.history.read p = some n → (f n).status = .dropped →
      n.status = .dropped ∨ s'.master ≠ p ∧ ∀ b ∈ s'.namedBranches, b.2 ≠ p)
    (hbranches : ∀ {b}, b ∈ s'.namedBranches → Kept s b.2) (hmaster : Kept s s'.master) :
    Registry s' := by
  have hnode : ∀ {q n}, s.history.read q = some n →
      s'.history.read q = some (if q = p then f n else n) := by
    intro q n hn
    rw [hhistory, Heap.read_modify, hn]
    split <;> rfl
  have hkept : ∀ {q}, (q = s'.master ∨ ∃ b ∈ s'.namedBranches, b.2 = q) → Kept s q → Kept s' q := by
    rintro q hq ⟨n, hn, hne⟩
    refine ⟨_, hnode hn, ?_⟩
    split
    · rename_i hqp
      subst hqp
      intro hdropped
      rcases hst n hn hdropped with hold | ⟨hm, hb⟩
      · exact hne hold
      · rcases hq with rfl | ⟨b, hmem, hbq⟩
        · exact hm rfl
        · exact hb b hmem hbq
    · exact hne
  refine ⟨?_, ?_, ?_⟩
  · intro id q hq
    rw [hmap] at hq
    obtain ⟨n, hn, hnid⟩ := hr.map hq
    refine ⟨_, hnode hn, ?_⟩
    split
    · rw [hid, hnid]
    · exact hnid
  · exact fun hb => hkept (Or.inr ⟨_, hb, rfl⟩) (hbranches hb)
  · exact hkept (Or.inl rfl) hmaster

/-- The case of a write that leaves the tables as they were and drops nothing. -/
theorem Registry.modify_of_tables {s s' : MemoryStore D R} (hr : Registry s) {p : Nat}
    {f : HistoryNode R → HistoryNode R} (hhistory : s'.history = s.history.modify p f)
    (htables : s'.snapshotMap = s.snapshotMap ∧ s'.namedBranches = s.namedBranches ∧
      s'.master = s.master) (hid : ∀ n, (f n).snapshotId = n.snapshotId)
    (hst : ∀ n, s.history.read p = some n → (f n).status = .dropped → n.status = .dropped) :
    Registry s' := by
  obtain ⟨hmap, hbranches, hmaster⟩ := htables
  refine hr.modify hhistory hmap hid (fun n hn h => Or.inl (hst n hn h)) ?_ ?_
  · rw [hbranches]
    exact hr.branches
  · rw [hmaster]
    exact hr.master

theorem Registry.makeSnapshot {L : DataLayer D R} {s s' : MemoryStore D R} (hr : Registry s)
    {p : Nat} {n : HistoryNode R} (hread : s.history.read p = some n) (hst : n.status ≠ .active)
    (h : makeSnapshot L s p = some s') : Registry s' := by
  obtain ⟨-, rfl⟩ := makeSnapshot_of_not_active hread hst h
  exact hr.modify_of_tables (p := p) (f := .ref) rfl ⟨rfl, rfl, rfl⟩ (fun _ => rfl) fun _ _ h => h

theorem Registry.splice {s s' : MemoryStore D R} (hr : Registry s) {p q : Nat}
    {n : HistoryNode R} (hn : s.history.read p = some n) (h : Spliced s s' p q n)
    (hmap : s'.snapshotMap = fun id => if id = n.snapshotId then none else s.snapshotMap id)
    (hmaster : s.master ≠ p) (hbranches : ∀ b ∈ s.namedBranches, b.2 ≠ p) : Registry s' := by
  refine ⟨?_, ?_, ?_⟩
  · intro id r hid
    rw [hmap] at hid
    simp only at hid
    split at hid
    · cases hid
    · rename_i hne
      obtain ⟨m, hm, hmid⟩ := hr.map hid
      have hrp : r ≠ p := by
        rintro rfl
        rw [hn] at hm
        cases hm
        exact hne hmid.symm
      exact ⟨_, h.read_of_read hrp hm, hmid⟩
  · intro b hb
    rw [h.branches] at hb
    obtain ⟨m, hm, hst⟩ := hr.branches hb
    exact ⟨_, h.read_of_read (hbranches b hb) hm, hst⟩
  · rw [h.master]
    obtain ⟨m, hm, hst⟩ := hr.master
    exact ⟨_, h.read_of_read hmaster hm, hst⟩

theorem Registry.graft {s s' : MemoryStore D R} (hr : Registry s) {p : Nat} {c : HistoryNode R}
    (h : Grafted s s' p c) : Registry s' := by
  refine ⟨?_, ?_, ?_⟩
  · intro id r hid
    rw [h.map] at hid
    simp only at hid
    split at hid
    · rename_i heq
      cases hid
      exact ⟨c, h.read_new, h.snapshotId.trans heq.symm⟩
    · obtain ⟨m, hm, hmid⟩ := hr.map hid
      exact ⟨_, h.read_of_read hm, hmid⟩
  · intro b hb
    rw [h.branches] at hb
    obtain ⟨m, hm, hst⟩ := hr.branches hb
    exact ⟨_, h.read_of_read hm, hst⟩
  · rw [h.master]
    obtain ⟨m, hm, hst⟩ := hr.master
    exact ⟨_, h.read_of_read hm, hst⟩

/-- No table but `snapshot_map_` designates an active snapshot. -/
theorem not_designated_of_active {s : MemoryStore D R} (hs : Statuses s) {p : Nat}
    {n : HistoryNode R} (hn : s.history.read p = some n) (hst : n.status = .active) :
    s.master ≠ p ∧ ∀ b ∈ s.namedBranches, b.2 ≠ p := by
  refine ⟨?_, ?_⟩
  · rintro rfl
    exact hs.master.2 hn hst
  · rintro b hb rfl
    exact (hs.branches hb).2 hn hst

theorem Registry.release {L : DataLayer D R} {s s' : MemoryStore D R} (hs : Inv s)
    (hr : Registry s) {handle : Nat} (h : s.release L handle = some s') : Registry s' := by
  simp only [MemoryStore.release, Option.bind_eq_bind, Option.bind_eq_some_iff] at h
  obtain ⟨p, hp, n, hn, h⟩ := h
  have hinv := hs.unref hp
  have hread := read_modifyNode_of_read p .unref hn
  rw [if_pos rfl] at hread
  have hunref : Registry { s.modifyNode p .unref with handles := s.handles.free handle } :=
    hr.modify_of_tables (p := p) (f := .unref) rfl ⟨rfl, rfl, rfl⟩ (fun _ => rfl) fun _ _ h => h
  split at h
  · split at h
    · rename_i hst
      simp only [Option.bind_eq_some_iff] at h
      obtain ⟨t, ht, h⟩ := h
      obtain ⟨q, -, hspliced, -, hmap⟩ := forget_spliced hinv hread hst ht h
      obtain ⟨hmaster, hbranches⟩ := not_designated_of_active hinv.statuses hread hst
      exact hunref.splice hread hspliced hmap hmaster hbranches
    · split at h
      · obtain ⟨data, rfl⟩ := doDrop_eq h
        exact hunref.modify_of_tables (p := p) (f := .setRoot none none) rfl ⟨rfl, rfl, rfl⟩
          (fun _ => rfl) fun _ _ h => h
      · cases h
        exact hunref
  · cases h
    exact hunref

def DropKeeps (s : MemoryStore D R) (handle : Nat) : Prop :=
  ∀ p n, s.handles.read handle = some p → s.history.read p = some n → n.parent.isSome →
    n.status = .dataLocked → s.master ≠ p ∧ ∀ b ∈ s.namedBranches, b.2 ≠ p

theorem Registry.drop {s s' : MemoryStore D R} (hs : Inv s) (hr : Registry s) {handle : Nat}
    (hkeep : DropKeeps s handle) (h : s.drop handle = some s') : Registry s' := by
  simp only [MemoryStore.drop, Option.bind_eq_bind, Option.bind_eq_some_iff] at h
  obtain ⟨p, hp, n, hn, h⟩ := h
  split at h
  · rename_i hparent
    simp only [Option.bind_eq_some_iff, Option.some.injEq] at h
    obtain ⟨t, ht, rfl⟩ := h
    unfold adjustForDrop at ht
    split at ht
    · -- The references to a committed snapshot go to one of its ancestors.
      obtain ⟨q, m, hlt, hm, hst, rfl⟩ := adjustNamedReferences_eq hs hn hparent ht
      have hq : Kept s q := ⟨m, hm, by rw [hst]; decide⟩
      have hqp : q ≠ p := by omega
      refine hr.modify (p := p) (f := .setStatus .dropped) rfl rfl (fun _ => rfl) ?_ ?_ ?_
      · intro _ _ _
        refine Or.inr ⟨?_, ?_⟩
        · change (if s.master = p then q else s.master) ≠ p
          split <;> assumption
        · intro b hb
          obtain ⟨a, -, rfl⟩ := List.mem_map.mp hb
          split <;> assumption
      · intro b hb
        obtain ⟨a, ha, rfl⟩ := List.mem_map.mp hb
        split
        · exact hq
        · exact hr.branches ha
      · change Kept s (if s.master = p then q else s.master)
        split
        · exact hq
        · exact hr.master
    · cases ht
      rename_i hst
      refine hr.modify (p := p) (f := .setStatus .dropped) rfl rfl (fun _ => rfl) ?_ hr.branches
        hr.master
      intro m hm _
      have hmn : m = n := Option.some.inj (hm.symm.trans hn)
      subst hmn
      cases hstatus : m.status with
      | active => exact Or.inr (not_designated_of_active hs.statuses hn hstatus)
      | committed => exact absurd hstatus hst
      | dropped => exact Or.inl rfl
      | dataLocked => exact Or.inr (hkeep p m hp hn hparent hstatus)
  · cases h
    exact hr

def PackKeeps (s : MemoryStore D R) : Prop :=
  ∀ p n, s.history.read p = some n → n.root = none → n.references = 0 → 2 ≤ n.children.length

theorem doRemoveHistoryNode_of_two_le {s : MemoryStore D R} {p : Nat} {n : HistoryNode R}
    (hn : s.history.read p = some n) (hlen : 2 ≤ n.children.length) :
    s.doRemoveHistoryNode p = some s := by
  obtain ⟨a, b, rest, hchildren⟩ : ∃ a b rest, n.children = a :: b :: rest := by
    match hc : n.children with
    | [] => simp [hc] at hlen
    | [_] => simp [hc] at hlen
    | a :: b :: rest => exact ⟨a, b, rest, rfl⟩
  simp [doRemoveHistoryNode, hn, hchildren]

theorem doPackNode_eq {branches : List Nat} {fuel : Nat} {s s' : MemoryStore D R}
    (hkeep : PackKeeps s) {p : Nat} (h : doPackNode branches fuel s p = some s') : s' = s := by
  induction fuel generalizing s' p with
  | zero => cases h
  | succ fuel ih =>
      simp only [doPackNode, Option.bind_eq_bind, Option.bind_eq_some_iff] at h
      obtain ⟨n, -, t, ht, m, hm, h⟩ := h
      have hbelow : t = s := by
        refine foldlM_keeps (I := fun u => u = s) ?_ rfl ht
        rintro u c u' rfl hu'
        exact ih hu'
      subst hbelow
      split at h
      · rename_i hcond
        have hlen := hkeep p m hm (Option.isNone_iff_eq_none.mp hcond.1) hcond.2.1
        rw [doRemoveHistoryNode_of_two_le hm hlen] at h
        exact (Option.some.inj h).symm
      · exact (Option.some.inj h).symm

theorem pack_eq {s s' : MemoryStore D R} (hkeep : PackKeeps s) (h : s.pack = some s') :
    s' = s := by
  simp only [pack, doPack, Option.bind_eq_bind, Option.bind_eq_some_iff] at h
  obtain ⟨t, ht, h⟩ := h
  obtain rfl := doPackNode_eq hkeep ht
  refine foldlM_keeps (I := fun u => u = t) ?_ rfl h
  rintro u b u' rfl hu'
  simp only [doPackBranch, Option.bind_eq_bind, Option.bind_eq_some_iff] at hu'
  obtain ⟨n, hn, hu'⟩ := hu'
  split at hu'
  · rename_i hcond
    have hlen := hkeep _ n hn (Option.isNone_iff_eq_none.mp hcond.1) hcond.2
    rw [doRemoveHistoryNode_of_two_le hn hlen] at hu'
    exact (Option.some.inj hu').symm
  · exact (Option.some.inj hu').symm

theorem Registry.commit {s s' : MemoryStore D R} (hr : Registry s) {handle : Nat} {flushed : Bool}
    (h : s.commit handle flushed = some s') : Registry s' := by
  simp only [MemoryStore.commit, Option.bind_eq_bind, Option.bind_eq_some_iff] at h
  obtain ⟨p, -, n, -, h⟩ := h
  split at h
  · split at h
    · cases h
      exact hr.modify_of_tables (p := p) (f := .setStatus .committed) rfl ⟨rfl, rfl, rfl⟩
        (fun _ => rfl) fun _ _ h => by cases h
    · cases h
      exact hr
  · cases h
    exact hr

theorem Registry.lockDataForImport {s s' : MemoryStore D R} (hr : Registry s) {handle : Nat}
    {openContainers : Bool} (h : s.lockDataForImport handle openContainers = some s') :
    Registry s' := by
  simp only [MemoryStore.lockDataForImport, Option.bind_eq_bind, Option.bind_eq_some_iff] at h
  obtain ⟨p, -, n, -, h⟩ := h
  split at h
  · cases h
    exact hr.modify_of_tables (p := p) (f := .setStatus .dataLocked) rfl ⟨rfl, rfl, rfl⟩
      (fun _ => rfl) fun _ _ h => by cases h
  · cases h
    exact hr

theorem Registry.setSnapshotMetadata {s s' : MemoryStore D R} (hr : Registry s) {handle : Nat}
    {metadata : String} (h : s.setSnapshotMetadata handle metadata = some s') : Registry s' := by
  simp only [MemoryStore.setSnapshotMetadata, Option.bind_eq_bind, Option.bind_eq_some_iff] at h
  obtain ⟨p, -, n, -, h⟩ := h
  split at h
  · cases h
    exact hr.modify_of_tables (p := p) (f := .setMetadata metadata) rfl ⟨rfl, rfl, rfl⟩
      (fun _ => rfl) fun _ _ h => h
  · cases h
    exact hr

/-- `set_master` and `set_branch` take committed and locked snapshots only. -/
theorem kept_of_status {s : MemoryStore D R} {p : Nat} {n : HistoryNode R}
    (hn : s.history.read p = some n) (hst : n.status = .committed ∨ n.status = .dataLocked) :
    Kept s p := by
  refine ⟨n, hn, ?_⟩
  rcases hst with hst | hst <;> rw [hst] <;> decide

theorem Registry.setMaster {s s' : MemoryStore D R} (hr : Registry s) {id : Nat}
    (h : s.setMaster id = some s') : Registry s' := by
  unfold MemoryStore.setMaster at h
  split at h
  · cases h
    exact hr
  · simp only [Option.bind_eq_bind, Option.bind_eq_some_iff] at h
    obtain ⟨n, hn, h⟩ := h
    split at h
    · rename_i hst
      cases h
      exact ⟨hr.map, hr.branches, kept_of_status hn hst⟩
    · cases h
      exact hr

theorem Registry.setBranch {s s' : MemoryStore D R} (hr : Registry s) {name : String} {id : Nat}
    (h : s.setBranch name id = some s') : Registry s' := by
  unfold MemoryStore.setBranch at h
  split at h
  · cases h
    exact hr
  · simp only [Option.bind_eq_bind, Option.bind_eq_some_iff] at h
    obtain ⟨n, hn, h⟩ := h
    split at h
    · rename_i hst
      cases h
      refine ⟨hr.map, ?_, hr.master⟩
      intro b hb
      rcases mem_insertBranch hb with rfl | hold
      · exact kept_of_status hn hst
      · exact hr.branches hold
    · cases h
      exact hr

theorem Registry.find {L : DataLayer D R} {s s' : MemoryStore D R} (hr : Registry s) {id : Nat}
    (h : s.find L id = some s') : Registry s' := by
  unfold MemoryStore.find at h
  split at h
  · cases h
    exact hr
  · simp only [Option.bind_eq_bind, Option.bind_eq_some_iff] at h
    obtain ⟨n, hn, h⟩ := h
    split at h
    · rename_i hst
      exact hr.makeSnapshot hn (by rw [hst]; decide) h
    · cases h
      exact hr

theorem Registry.findBranch {L : DataLayer D R} {s s' : MemoryStore D R} (hr : Registry s)
    {name : String} (h : s.findBranch L name = some s') : Registry s' := by
  unfold MemoryStore.findBranch at h
  split at h
  · cases h
    exact hr
  · simp only [Option.bind_eq_bind, Option.bind_eq_some_iff] at h
    obtain ⟨n, hn, h⟩ := h
    split at h
    · rename_i hst
      exact hr.makeSnapshot hn (by rw [hst]; decide) h
    · split at h
      · rename_i hst
        exact hr.makeSnapshot hn (by rw [hst.1]; decide) h
      · cases h
        exact hr

theorem Registry.openParent {L : DataLayer D R} {s s' : MemoryStore D R} (hs : Inv s)
    (hr : Registry s) {handle : Nat} (h : s.openParent L handle = some s') : Registry s' := by
  simp only [MemoryStore.openParent, Option.bind_eq_bind, Option.bind_eq_some_iff] at h
  obtain ⟨p, -, n, hn, h⟩ := h
  split at h
  · cases h
    exact hr
  · rename_i q hq
    obtain ⟨-, m, hm, hmem⟩ := hs.shape.parentLive hn hq
    exact hr.makeSnapshot hm ((hs.statuses.node hm).ne_active_of_mem hmem) h

def KeepsRegistry (s : MemoryStore D R) : Op → Prop
  | .pack => PackKeeps s
  | .drop handle => DropKeeps s handle
  | _ => True

/-- The registry is kept by every call, but for a pack with something to remove and a drop of a
locked snapshot that is the master or has a name. -/
theorem Registry.step {L : DataLayer D R} {s s' : MemoryStore D R} (hs : Inv s) (hr : Registry s)
    {op : Op} (hkeep : KeepsRegistry s op) (h : step L s op = some s') : Registry s' := by
  cases op with
  | branch handle =>
      rcases branch_cases hs h with rfl | ⟨p, n, c, -, -, hgraft⟩
      · exact hr
      · exact hr.graft hgraft
  | commit handle flushed => exact hr.commit h
  | drop handle => exact Registry.drop hs hr hkeep h
  | lockDataForImport handle openContainers => exact hr.lockDataForImport h
  | setSnapshotMetadata handle metadata => exact hr.setSnapshotMetadata h
  | release handle => exact Registry.release hs hr h
  | find id => exact hr.find h
  | findBranch name => exact hr.findBranch h
  | openMaster =>
      obtain ⟨n, hn, -⟩ := hr.master
      exact hr.makeSnapshot hn (hs.statuses.master.2 hn) h
  | openParent handle => exact Registry.openParent hs hr h
  | setMaster id => exact hr.setMaster h
  | setBranch name id => exact hr.setBranch h
  | removeNamedBranch name =>
      cases h
      exact ⟨hr.map, fun hb => hr.branches (List.mem_of_mem_filter hb), hr.master⟩
  | pack =>
      obtain rfl := pack_eq hkeep h
      exact hr

theorem create_registry (L : DataLayer D R) : Registry (create L) := by
  refine ⟨?_, fun hb => (List.not_mem_nil hb).elim, ⟨_, rfl, nofun⟩⟩
  intro id p hid
  simp only [create] at hid
  split at hid
  · rename_i heq
    cases hid
    exact ⟨_, rfl, heq.symm⟩
  · cases hid

/-- In every run of the store whose calls of `pack` find nothing to remove and whose calls of `drop`
meet no locked snapshot that is designated, the tables are whole in every state. -/
theorem registry_kept (L : DataLayer D R) (ops : List Op)
    (hrun : EveryStep (step L) KeepsRegistry (create L) ops) :
    EveryState (step L) RegistryOk (create L) ops := by
  refine EveryState.of_invariant (I := fun s => Inv s ∧ Registry s) ?_ ?_
    ⟨create_inv L, create_registry L⟩ hrun
  · rintro s op s' ⟨hs, hr⟩ hkeep h
    exact ⟨(step_spec hs h).1, Registry.step hs hr hkeep h⟩
  · exact fun s hs => Registry.ok hs.1 hs.2

instance [DecidableEq R] (s : MemoryStore D R) : Decidable (PackKeeps s) :=
  decidable_of_iff (∀ p < s.history.next, ∀ n ∈ s.history.read p, n.root = none →
      n.references = 0 → 2 ≤ n.children.length)
    ⟨fun h p n hn => h p (Heap.lt_next_of_read hn) n hn, fun h p _ n hn => h p n hn⟩

instance (s : MemoryStore D R) (handle : Nat) : Decidable (DropKeeps s handle) :=
  decidable_of_iff (∀ p ∈ s.handles.read handle, ∀ n ∈ s.history.read p, n.parent.isSome →
      n.status = .dataLocked → s.master ≠ p ∧ ∀ b ∈ s.namedBranches, b.2 ≠ p)
    ⟨fun h p n hp hn => h p hp n hn, fun h p hp n hn => h p n hp hn⟩

instance [DecidableEq R] (s : MemoryStore D R) : ∀ op, Decidable (KeepsRegistry s op)
  | .pack => inferInstanceAs (Decidable (PackKeeps s))
  | .drop handle => inferInstanceAs (Decidable (DropKeeps s handle))
  | .branch _ | .commit _ _ | .lockDataForImport _ _ | .setSnapshotMetadata _ _ | .release _
  | .find _ | .findBranch _ | .openMaster | .openParent _ | .setMaster _ | .setBranch _ _
  | .removeNamedBranch _ => inferInstanceAs (Decidable True)

def forked : List Op :=
  [.openMaster, .branch 0, .commit 1 true, .setBranch "main" 1, .branch 1, .commit 2 true,
    .branch 2, .commit 3 true, .branch 2, .commit 4 true, .drop 2, .release 2, .pack]

theorem registry_kept_forked :
    EveryStep (step TreeData.layer) KeepsRegistry (create TreeData.layer) forked ∧
      EveryState (step TreeData.layer) RegistryOk (create TreeData.layer) forked := by
  have hrun : EveryStep (step TreeData.layer) KeepsRegistry (create TreeData.layer) forked := by
    decide +kernel
  exact ⟨hrun, registry_kept TreeData.layer _ hrun⟩

/-- A snapshot that is dropped, released and packed away is still in the map of snapshots. -/
theorem packed_snapshot_in_map :
    ∃ s, run TreeData.layer (create TreeData.layer)
        [.openMaster, .branch 0, .commit 1 true, .drop 1, .release 1, .pack] = some s ∧
      ¬ RegistryOk s ∧ s.snapshotMap 1 = some 1 ∧ (s.history.read 1).isNone := by
  have hrun : (run TreeData.layer (create TreeData.layer)
      [.openMaster, .branch 0, .commit 1 true, .drop 1, .release 1, .pack]).map
        (fun s => (s.snapshotMap 1, (s.history.read 1).isNone)) = some (some 1, true) := by
    decide +kernel
  obtain ⟨s, hs, hmap⟩ := Option.map_eq_some_iff.mp hrun
  obtain ⟨hid, hgone⟩ := Prod.mk.inj hmap
  refine ⟨s, hs, ?_, hid, hgone⟩
  intro hok
  obtain ⟨-, n, hn⟩ := hok.map 1 1 hid
  rw [hn] at hgone
  cases hgone

end Memoria.MemoryStore

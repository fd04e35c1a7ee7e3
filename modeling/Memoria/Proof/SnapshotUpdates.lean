import Memoria.Proof.SnapshotForest

/-!
# Calls on the blocks of one snapshot

A block that carries the id of an active snapshot is in the tree of this snapshot only, under one
id: it was made there, and nobody can have branched off. So the snapshot may write to it in place,
and every other block that it changes is a new one.
-/

namespace Memoria.PersistentTree

open Lib

variable {K B : Type} {t t' t'' : PersistentTree K B} {f : Forest K} {p r owner : Nat}
  {values values' values'' : K → Option Value} {data data' : K → Option B}

def Forest.Private (f : Forest K) : Prop :=
  ∀ p k v, (f.root p).isSome → f.active p = some v.snapshotId → f.values p k = some v →
    ∀ q k' v', (f.root q).isSome → f.values q k' = some v' → v'.blockPtr = v.blockPtr →
      q = p ∧ k' = k

section Change

variable [LinearOrder K] [Inhabited K] {layout : NodeLayout}

structure Changed (layout : NodeLayout) (t : PersistentTree K B) (f : Forest K) (p owner : Nat)
    (t' : PersistentTree K B) (values : K → Option Value) (data : K → Option B) : Prop where
  planted : Planted layout t' (f.setTree p t'.root values)
  isolated : (f.setTree p t'.root values).Private
  made : ∀ k v, values k = some v → f.values p k = some v ∨ v.snapshotId = owner
  shows : shown t' values = data
  others : ∀ q, q ≠ p → (f.root q).isSome → shown t' (f.values q) = shown t (f.values q)

omit [LinearOrder K] [Inhabited K] in
theorem setTree_setTree (f : Forest K) (p r r' : Nat) (values values' : K → Option Value) :
    (f.setTree p r values).setTree p r' values' = f.setTree p r' values' := by
  simp only [Forest.setTree, Function.update_idem]

omit [LinearOrder K] [Inhabited K] in
theorem setTree_self (hp : f.root p = some r) : f.setTree p r (f.values p) = f := by
  obtain ⟨root, values, active⟩ := f
  simp only [Forest.setTree, Forest.mk.injEq, and_true]
  exact ⟨by rw [← hp, Function.update_eq_self], Function.update_eq_self ..⟩

theorem Changed.trans (h : Changed layout t f p owner t' values data)
    (h' : Changed layout t' (f.setTree p t'.root values) p owner t'' values' data') :
    Changed layout t f p owner t'' values' data' := by
  refine ⟨?_, ?_, ?_, h'.shows, ?_⟩
  · have hplanted := h'.planted
    rwa [setTree_setTree] at hplanted
  · have hprivate := h'.isolated
    rwa [setTree_setTree] at hprivate
  · intro k v hv
    rcases h'.made k v hv with hold | hnew
    · change Function.update f.values p values p k = some v at hold
      rw [Function.update_self] at hold
      exact h.made k v hold
    · exact Or.inr hnew
  · intro q hq hroot
    have hothers := h'.others q hq (by
      change (Function.update f.root p (some t'.root) q).isSome
      rw [Function.update_of_ne hq]
      exact hroot)
    change shown t'' (Function.update f.values p values q)
      = shown t' (Function.update f.values p values q) at hothers
    rw [Function.update_of_ne hq] at hothers
    rw [hothers, h.others q hq hroot]

omit [LinearOrder K] [Inhabited K] in
/-- The blocks have kept their data. -/
theorem shown_congr (h : ∀ k v, values k = some v →
    (t'.blocks.read v.blockPtr).map Block.data = (t.blocks.read v.blockPtr).map Block.data) :
    shown t' values = shown t values := by
  funext k
  unfold shown
  cases hv : values k with
  | none => rfl
  | some v => exact h k v hv

theorem Planted.map_data_eq (h : Planted layout t' f) {q : Nat} (hq : (f.root q).isSome) {k : K}
    {v : Value} (hv : f.values q k = some v)
    (hkept : ∀ block', t'.blocks.read v.blockPtr = some block' →
      ∃ block, t.blocks.read v.blockPtr = some block ∧ block.data = block'.data) :
    (t'.blocks.read v.blockPtr).map Block.data = (t.blocks.read v.blockPtr).map Block.data := by
  obtain ⟨r, hr⟩ := Option.isSome_iff_exists.mp hq
  obtain ⟨block', hblock', -⟩ := h.exists_block hr hv
  obtain ⟨block, hblock, hdata⟩ := hkept block' hblock'
  rw [hblock', hblock, Option.map_some, Option.map_some, hdata]

/-- A step that only counts and deletes blocks changes nothing that can still be seen. -/
theorem BlocksKept.shown_eq (hkept : BlocksKept t t') (h : Planted layout t' f) {q : Nat}
    (hq : (f.root q).isSome) : shown t' (f.values q) = shown t (f.values q) :=
  shown_congr fun _ _ hv => h.map_data_eq hq hv fun block' hb => hkept.data _ block' hb

omit [LinearOrder K] [Inhabited K] in
/-- The other snapshots are in the forest as before. -/
theorem setTree_root_of_ne {q : Nat} (hq : q ≠ p) (hroot : (f.root q).isSome) :
    ((f.setTree p r values).root q).isSome := by
  change (Function.update f.root p (some r) q).isSome
  rw [Function.update_of_ne hq]
  exact hroot

omit [LinearOrder K] [Inhabited K] in
theorem setTree_values_of_ne {q : Nat} (hq : q ≠ p) :
    (f.setTree p r values).values q = f.values q := Function.update_of_ne hq ..

omit [LinearOrder K] [Inhabited K] in
theorem setTree_values_self : (f.setTree p r values).values p = values := Function.update_self ..

omit [LinearOrder K] [Inhabited K] in
theorem setTree_root_self : (f.setTree p r values).root p = some r := Function.update_self ..

omit [LinearOrder K] [Inhabited K] in
/-- A block that nobody has had is put under an id. -/
theorem Forest.Private.setNew [DecidableEq K] (h : f.Private) {id : K} {v : Value}
    (hp : (f.root p).isSome)
    (hfresh : ∀ q k w, (f.root q).isSome → f.values q k = some w → w.blockPtr ≠ v.blockPtr) :
    (f.setTree p r (Function.update (f.values p) id (some v))).Private := by
  -- A value of the new forest is the new one in its place, or one of the old forest.
  have hcases : ∀ q k w, ((f.setTree p r (Function.update (f.values p) id (some v))).root q).isSome →
      (f.setTree p r (Function.update (f.values p) id (some v))).values q k = some w →
      (q = p ∧ k = id ∧ w = v) ∨ ((f.root q).isSome ∧ f.values q k = some w) := by
    intro q k w hroot hw
    by_cases hq : q = p
    · subst hq
      rw [setTree_values_self] at hw
      by_cases hk : k = id
      · subst hk
        rw [Function.update_self] at hw
        exact Or.inl ⟨rfl, rfl, (Option.some.inj hw).symm⟩
      · rw [Function.update_of_ne hk] at hw
        exact Or.inr ⟨hp, hw⟩
    · rw [setTree_values_of_ne hq] at hw
      change (Function.update f.root p (some r) q).isSome at hroot
      rw [Function.update_of_ne hq] at hroot
      exact Or.inr ⟨hroot, hw⟩
  intro q k w hroot hactive hw q' k' w' hroot' hw' hptr
  rcases hcases q k w hroot hw with ⟨rfl, rfl, rfl⟩ | ⟨hold, hvalue⟩
  · rcases hcases q' k' w' hroot' hw' with ⟨rfl, rfl, -⟩ | ⟨hold', hvalue'⟩
    · exact ⟨rfl, rfl⟩
    · exact absurd hptr (hfresh q' k' w' hold' hvalue')
  · rcases hcases q' k' w' hroot' hw' with ⟨-, -, rfl⟩ | ⟨hold', hvalue'⟩
    · exact absurd hptr.symm (hfresh q k w hold hvalue)
    · exact h q k w hold hactive hvalue q' k' w' hold' hvalue' hptr

/-- `ptree_set_new_block` in the tree of a snapshot. -/
theorem Planted.setNewBlock (h : Planted layout t f) (hprivate : f.Private)
    (hp : f.root p = some t.root) (id : K) (content : B)
    (hroom : f.values p id = none → ∀ iter, t.locate layout id = some iter →
      HasRoom layout t iter.path) :
    ∃ t', t.setNewBlock layout id content = some t' ∧
      Changed layout t f p t.snapshotId t'
        (Function.update (f.values p) id (some ⟨t.blocks.next, t.snapshotId⟩))
        (Function.update (shown t (f.values p)) id (some content)) := by
  obtain ⟨tree, hwf, hmap⟩ := h.wellFormed hp rfl
  obtain ⟨t', tree', hrun, hwf', hmap', hkeeps, hset⟩ :=
    setNewBlock_spec hwf content (by rwa [hmap])
  have hplanted := h.setTree hwf' hkeeps hset.counted
  rw [hmap', hmap] at hplanted
  have hold : ∀ q k v, (f.root q).isSome → f.values q k = some v → v.blockPtr ≠ t.blocks.next := by
    intro q k v hq hv
    obtain ⟨r, hr⟩ := Option.isSome_iff_exists.mp hq
    exact h.ne_next hr hv
  have hpsome : (f.root p).isSome := Option.isSome_iff_exists.mpr ⟨_, hp⟩
  have hdata : ∀ b, b ≠ t.blocks.next → ∀ block', t'.blocks.read b = some block' →
      ∃ block, t.blocks.read b = some block ∧ block.data = block'.data := by
    intro b hb block' hblock'
    rcases hset.data b block' hblock' with ⟨heq, -⟩ | hkept
    · exact absurd heq hb
    · exact hkept
  refine ⟨t', hrun, hplanted, hprivate.setNew hpsome hold, ?_, ?_, ?_⟩
  · intro k v hv
    by_cases hk : k = id
    · rw [hk, Function.update_self] at hv
      exact Or.inr (Option.some.inj hv ▸ rfl)
    · rw [Function.update_of_ne hk] at hv
      exact Or.inl hv
  · funext k
    by_cases hk : k = id
    · subst hk
      obtain ⟨block, hblock, -⟩ := hplanted.exists_block (k := k)
        (v := ⟨t.blocks.next, t.snapshotId⟩) setTree_root_self (by
          rw [setTree_values_self, Function.update_self])
      have hcontent : block.data = content := by
        rcases hset.data _ block hblock with ⟨-, hdata⟩ | ⟨old, hread, -⟩
        · exact hdata
        · change t.blocks.read t.blocks.next = some old at hread
          rw [Heap.read_next] at hread
          cases hread
      rw [shown, Function.update_self, Function.update_self, Option.bind_some, hblock,
        Option.map_some, hcontent]
    · rw [shown, Function.update_of_ne hk, Function.update_of_ne hk, shown]
      cases hv : f.values p k with
      | none => rfl
      | some v =>
          have hv' : (f.setTree p t'.root
              (Function.update (f.values p) id (some ⟨t.blocks.next, t.snapshotId⟩))).values p k
                = some v := by
            rw [setTree_values_self, Function.update_of_ne hk, hv]
          exact hplanted.map_data_eq (Option.isSome_iff_exists.mpr ⟨_, setTree_root_self⟩) hv'
            (hdata _ (hold p k v hpsome hv))
  · intro q hq hroot
    refine shown_congr fun k v hv => ?_
    refine hplanted.map_data_eq (setTree_root_of_ne hq hroot) (k := k) ?_ (hdata _ (hold q k v hroot hv))
    rw [setTree_values_of_ne hq, hv]

omit [LinearOrder K] [Inhabited K] in
theorem refs_writeBlock (t : PersistentTree K B) (b : Nat) (write : B → B) (c : Nat) :
    ((t.writeBlock b write).blocks.read c).map Block.refs = (t.blocks.read c).map Block.refs := by
  unfold writeBlock
  rw [Heap.read_modify]
  split
  · rw [Option.map_map]
    rfl
  · rfl

omit [LinearOrder K] [Inhabited K] in
theorem data_writeBlock (t : PersistentTree K B) (b : Nat) (write : B → B) (c : Nat) :
    ((t.writeBlock b write).blocks.read c).map Block.data
      = if c = b then ((t.blocks.read c).map Block.data).map write
        else (t.blocks.read c).map Block.data := by
  unfold writeBlock
  rw [Heap.read_modify]
  split
  · rw [Option.map_map, Option.map_map]
    rfl
  · rfl

/-- A write to a block of the snapshot's own. -/
theorem Planted.writeBlock (h : Planted layout t f) (hprivate : f.Private)
    (hp : f.root p = some t.root) (hactive : f.active p = some owner) {id : K} {v : Value}
    (hv : f.values p id = some v) (hown : v.snapshotId = owner) (write : B → B) :
    Changed layout t f p owner (t.writeBlock v.blockPtr write) (f.values p)
      (Function.update (shown t (f.values p)) id ((shown t (f.values p) id).map write)) := by
  have hself : f.setTree p (t.writeBlock v.blockPtr write).root (f.values p) = f := setTree_self hp
  have hpsome : (f.root p).isSome := Option.isSome_iff_exists.mpr ⟨_, hp⟩
  have hactive' : f.active p = some v.snapshotId := by rw [hown, hactive]
  have honly := hprivate p id v hpsome hactive' hv
  have hother : ∀ q k w, (f.root q).isSome → f.values q k = some w → ¬ (q = p ∧ k = id) →
      ((t.writeBlock v.blockPtr write).blocks.read w.blockPtr).map Block.data
        = (t.blocks.read w.blockPtr).map Block.data := by
    intro q k w hq hw hne
    rw [data_writeBlock, if_neg fun hptr => hne (honly q k w hq hw hptr)]
  refine ⟨?_, ?_, fun _ _ hv => Or.inl hv, ?_, ?_⟩
  · rw [hself]
    exact h.congr rfl (refs_writeBlock t v.blockPtr write)
  · rw [hself]
    exact hprivate
  · funext k
    by_cases hk : k = id
    · rw [hk, Function.update_self, shown, shown, hv, Option.bind_some, Option.bind_some,
        data_writeBlock, if_pos rfl]
    · rw [Function.update_of_ne hk, shown, shown]
      cases hw : f.values p k with
      | none => rfl
      | some w => exact hother p k w hpsome hw fun hboth => hk hboth.2
  · intro q hq hroot
    exact shown_congr fun k w hw => hother q k w hroot hw fun hboth => hq hboth.1

/-- `updateBlock` of a block that is there, and the write that it is for. -/
theorem Planted.changeBlock (h : Planted layout t f) (hprivate : f.Private)
    (hp : f.root p = some t.root) (hactive : f.active p = some t.snapshotId) {id : K} {v : Value}
    (hv : f.values p id = some v) (write : B → B) :
    ∃ t' values', t.changeBlock layout id write = some t' ∧
      Changed layout t f p t.snapshotId t' values'
        (Function.update (shown t (f.values p)) id ((shown t (f.values p) id).map write)) := by
  obtain ⟨tree, hwf, hmap⟩ := h.wellFormed hp rfl
  have hfind : t.find layout id = some (some v) := by rw [find_eq_toMap hwf, hmap, hv]
  unfold PersistentTree.changeBlock updateBlock
  simp only [hfind, Option.bind_eq_bind, Option.bind_some]
  by_cases hown : v.snapshotId = t.snapshotId
  · refine ⟨t.writeBlock v.blockPtr write, f.values p, ?_,
      h.writeBlock hprivate hp hactive hv hown write⟩
    simp only [hown, if_true, Option.bind_some]
  · -- The clone shows what the block shows, and belongs to the snapshot.
    obtain ⟨block, hblock, -⟩ := h.exists_block hp hv
    have hshown : shown t (f.values p) id = some block.data := by
      rw [shown, hv, Option.bind_some, hblock, Option.map_some]
    obtain ⟨t₁, hrun, hclone⟩ := h.setNewBlock hprivate hp id block.data fun hnone => by
      rw [hv] at hnone
      cases hnone
    rw [← hshown, Function.update_eq_self] at hclone
    have hnew : (f.setTree p t₁.root
        (Function.update (f.values p) id (some ⟨t.blocks.next, t.snapshotId⟩))).values p id =
          some ⟨t.blocks.next, t.snapshotId⟩ := by
      rw [setTree_values_self, Function.update_self]
    have hwrite := hclone.planted.writeBlock hclone.isolated setTree_root_self
      (show (f.setTree p t₁.root _).active p = some t.snapshotId from hactive) hnew rfl write
    rw [setTree_values_self, hclone.shows] at hwrite
    refine ⟨t₁.writeBlock t.blocks.next write, _, ?_, hclone.trans hwrite⟩
    simp only [hown, if_false, hblock, Option.bind_some, hrun]

/-- `removeBlock` of a block that is there. -/
theorem Planted.remove (h : Planted layout t f) (hprivate : f.Private) (hp : f.root p = some t.root)
    {id : K} {v : Value} (hv : f.values p id = some v)
    (hok : ∀ iter, t.locate layout id = some iter → RemoveOk layout t iter) :
    ∃ t', t.remove layout id = some (t', true) ∧
      Changed layout t f p owner t' (Function.update (f.values p) id none)
        (Function.update (shown t (f.values p)) id none) := by
  obtain ⟨tree, hwf, hmap⟩ := h.wellFormed hp rfl
  have hpsome : (f.root p).isSome := Option.isSome_iff_exists.mpr ⟨_, hp⟩
  obtain hsame | ⟨t', tree', found, hrun, hwf', hmap', hfound, hkeeps⟩ := remove_spec hwf hok
  · have hless := (remove_eq_self_iff hwf).mp hsame
    rw [← hmap, hwf.valid.sorted.toMap_eq_some_iff] at hv
    exact absurd (hless _ hv) (lt_irrefl _)
  · have hid : found = id := hfound v (by rw [hmap, hv])
    have hkept := blocksKept_remove hrun
    have hplanted := h.setTree hwf' hkeeps hkept.counted
    rw [hmap', hmap, hid] at hplanted
    refine ⟨t', hrun, hplanted, ?_, ?_, ?_, ?_⟩
    · -- Every value that is left was there before.
      have hback : ∀ q k w, ((f.setTree p t'.root (Function.update (f.values p) id none)).root q).isSome →
          (f.setTree p t'.root (Function.update (f.values p) id none)).values q k = some w →
          (f.root q).isSome ∧ f.values q k = some w := by
        intro q k w hroot hw
        by_cases hq : q = p
        · subst hq
          rw [setTree_values_self] at hw
          refine ⟨hpsome, ?_⟩
          by_cases hk : k = id
          · rw [hk, Function.update_self] at hw
            cases hw
          · rwa [Function.update_of_ne hk] at hw
        · rw [setTree_values_of_ne hq] at hw
          change (Function.update f.root p (some t'.root) q).isSome at hroot
          rw [Function.update_of_ne hq] at hroot
          exact ⟨hroot, hw⟩
      intro q k w hroot hactive hw q' k' w' hroot' hw' hptr
      obtain ⟨hroot, hw⟩ := hback q k w hroot hw
      obtain ⟨hroot', hw'⟩ := hback q' k' w' hroot' hw'
      exact hprivate q k w hroot hactive hw q' k' w' hroot' hw' hptr
    · intro k w hw
      by_cases hk : k = id
      · rw [hk, Function.update_self] at hw
        cases hw
      · rw [Function.update_of_ne hk] at hw
        exact Or.inl hw
    · funext k
      by_cases hk : k = id
      · rw [hk, shown, Function.update_self, Function.update_self, Option.bind_none]
      · rw [shown, Function.update_of_ne hk, Function.update_of_ne hk, shown]
        cases hw : f.values p k with
        | none => rfl
        | some w =>
            refine hplanted.map_data_eq (k := k)
              (Option.isSome_iff_exists.mpr ⟨_, setTree_root_self⟩) ?_
              fun block' hb => hkept.data _ block' hb
            rw [setTree_values_self, Function.update_of_ne hk, hw]
    · intro q hq hroot
      refine shown_congr fun k w hw => ?_
      refine hplanted.map_data_eq (setTree_root_of_ne hq hroot) (k := k) ?_
        fun block' hb => hkept.data _ block' hb
      rw [setTree_values_of_ne hq, hw]

end Change

end Memoria.PersistentTree

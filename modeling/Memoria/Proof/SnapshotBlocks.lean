import Memoria.SnapshotBlocks
import Memoria.Proof.TreeBlocks

/-!
# New blocks in a tree

A new block is counted once before the tree gets it, and the block that it takes the place of loses
the reference of the tree. The tree is in order again after that, with the new block under its id.
-/

namespace Memoria.PersistentTree

open Lib

variable {K B : Type} {t t' : PersistentTree K B} {others : Ptr → Nat}

theorem refsOf_newBlock (t : PersistentTree K B) (data : B) (x : Ptr) :
    (t.newBlock data).refsOf x = t.refsOf x + if x = .block t.blocks.next then 1 else 0 := by
  cases x with
  | node p => simp [refsOf, newBlock]
  | block b =>
      simp only [refsOf, newBlock, Heap.read_alloc, Ptr.block.injEq]
      split
      · rename_i heq
        rw [heq, Heap.read_next]
        rfl
      · exact (Int.add_zero _).symm

theorem counted_newBlock (data : B) (h : Counted t) : Counted (t.newBlock data) := by
  intro b block hb
  change (t.blocks.alloc { refs := 1, data := data }).read b = some block at hb
  rw [Heap.read_alloc] at hb
  split at hb
  · obtain rfl := Option.some.inj hb
    exact Int.one_pos
  · exact h b block hb

/-- Searches read nodes only. -/
theorem locateIn_congr [Inhabited K] [LinearOrder K] {layout : NodeLayout} {key : K}
    (h : t'.nodes = t.nodes) (fuel p : Nat) (path : List Nat) :
    t'.locateIn layout key fuel p path = t.locateIn layout key fuel p path := by
  induction fuel generalizing p path with
  | zero => rfl
  | succ fuel ih => simp only [locateIn, h, ih]

theorem Holds.newBlock {tree : Root K Value} (h : Holds t others tree) (data : B) :
    Holds (t.newBlock data) (plus others (.block t.blocks.next)) tree := by
  refine ⟨h.rep, h.nodup, h.root, ?_, ?_⟩
  · intro x
    have hbal := h.balanced x
    have hslots : (t.newBlock data).slots x = t.slots x := rfl
    have hroot : (t.newBlock data).root = t.root := rfl
    rw [refsOf_newBlock, hslots, hroot]
    unfold withRoot plus at *
    split_ifs at * <;> omega
  · have howned := h.owned
    rw [refsOf_newBlock, if_neg (by simp)]
    exact (Int.add_zero _).trans howned

/-- The last reference from outside the heap to a block goes. -/
theorem Holds.unrefBlock {tree : Root K Value} {b : Nat}
    (h : Holds t (plus others (.block b)) tree) :
    ∃ t', t.unrefBlock b = some t' ∧ Holds t' others tree ∧ SameBodies t t' ∧
      ∀ p, t'.refsOf (.node p) = t.refsOf (.node p) := by
  have hpos : 0 < t.refsOf (.block b) := by
    have hbal := h.balanced (.block b)
    simp only [withRoot, plus, if_true] at hbal
    omega
  obtain ⟨t', hrun, hsame, hrefs⟩ := unrefBlock_spec hpos.ne'
  have hnodes : ∀ p, t'.refsOf (.node p) = t.refsOf (.node p) := by
    intro p
    rw [hrefs, if_neg (by simp)]
    exact Int.sub_zero _
  refine ⟨t', hrun, ⟨?_, h.nodup, hsame.root.trans h.root, ?_, ?_⟩, hsame, hnodes⟩
  · exact Rep.congr h.rep fun p _ => hsame.body p
  · intro x
    have hbal := h.balanced x
    rw [hrefs, hsame.slots, hsame.root]
    unfold withRoot plus at *
    split_ifs at * <;> omega
  · rw [hnodes, hsame.root]
    exact h.owned

structure SetNewBlock (t t' : PersistentTree K B) (data : B) : Prop where
  next : t'.blocks.next = t.blocks.next + 1
  data : ∀ b block', t'.blocks.read b = some block' →
    (b = t.blocks.next ∧ block'.data = data) ∨
      ∃ block, t.blocks.read b = some block ∧ block.data = block'.data
  counted : Counted t → Counted t'

theorem BlocksKept.setNewBlock {data : B} (h : BlocksKept (t.newBlock data) t') :
    SetNewBlock t t' data := by
  refine ⟨h.next, ?_, fun ht => h.counted (counted_newBlock data ht)⟩
  intro b block' hb
  obtain ⟨block, hblock, hdata⟩ := h.data b block' hb
  change (t.blocks.alloc { refs := 1, data := data }).read b = some block at hblock
  rw [Heap.read_alloc] at hblock
  split at hblock
  · rename_i heq
    obtain rfl := Option.some.inj hblock
    exact Or.inl ⟨heq, hdata.symm⟩
  · exact Or.inr ⟨block, hblock, hdata⟩

section Tree

variable [Inhabited K] [LinearOrder K] {layout : NodeLayout} {id : K} {tree : Root K Value}

theorem WellFormed.newBlock (h : WellFormed layout t others tree) (data : B) :
    WellFormed layout (t.newBlock data) (plus others (.block t.blocks.next)) tree :=
  ⟨⟨h.holds.newBlock data, h.sized, h.filled, h.height⟩, h.valid⟩

/-- `ptree_set_new_block` puts the block under its id. -/
theorem setNewBlock_spec (h : WellFormed layout t others tree) (data : B)
    (hroom : toMap (flatRoot tree) id = none →
      ∀ iter, t.locate layout id = some iter → HasRoom layout t iter.path) :
    ∃ t' tree', t.setNewBlock layout id data = some t' ∧ WellFormed layout t' others tree' ∧
      toMap (flatRoot tree') = Function.update (toMap (flatRoot tree)) id
        (some ⟨t.blocks.next, t.snapshotId⟩) ∧
      Keeps others t t' ∧ SetNewBlock t t' data := by
  have hlocate : (t.newBlock data).locate layout id = t.locate layout id :=
    locateIn_congr rfl _ _ _
  have hnew : WellFormed layout (t.newBlock data)
      (plus others (.block (Value.mk t.blocks.next t.snapshotId).blockPtr)) tree := h.newBlock data
  obtain ⟨t₁, tree', hrun, h₁, hmap, hassign⟩ :=
    assign_spec hnew (by
      intro hnone iter hiter
      rw [hlocate] at hiter
      exact hroom hnone iter hiter)
  have hkeeps : Keeps others t t₁ :=
    ⟨fun l s hext hrep => hassign.rep l s hext hrep,
      fun p hext hone => hassign.refs p hext (by
        rw [refsOf_newBlock, if_neg (by simp)]
        exact (Int.add_zero _).trans hone)⟩
  have hkept := blocksKept_assign hrun
  cases hold : toMap (flatRoot tree) id with
  | none =>
      have hset : t.setNewBlock layout id data = some t₁ := by
        simp only [setNewBlock, hrun, hold, Option.bind_eq_bind, Option.bind_some]
      rw [hold] at h₁
      exact ⟨t₁, tree', hset, h₁, hmap, hkeeps, hkept.setNewBlock⟩
  | some old =>
      have hset : t.setNewBlock layout id data = t₁.unrefBlock old.blockPtr := by
        simp only [setNewBlock, hrun, hold, Option.bind_eq_bind, Option.bind_some]
      rw [hold] at h₁
      obtain ⟨t₂, hrun₂, h₂, hsame, hrefs⟩ := h₁.holds.unrefBlock
      refine ⟨t₂, tree', hset.trans hrun₂, ⟨⟨h₂, h₁.sized, h₁.filled, h₁.height⟩, h₁.valid⟩, hmap,
        ?_, ?_⟩
      · exact hkeeps.trans (.of_sameBodies hsame hrefs)
      · exact (hkept.trans (blocksKept_unrefBlock hrun₂)).setNewBlock

end Tree

end Memoria.PersistentTree

import Memoria.Proof.TreeRuns

/-!
# Data blocks under the operations of a tree

A tree counts its data blocks and never looks into them. Whatever it does, the blocks that are left
were there before with the same data, and none of them stands without a reference.
-/

namespace Memoria.PersistentTree

open Lib

variable {K B : Type} {t t' t'' : PersistentTree K B}

def Counted (t : PersistentTree K B) : Prop :=
  ∀ b block, t.blocks.read b = some block → 0 < block.refs

structure BlocksKept (t t' : PersistentTree K B) : Prop where
  data : ∀ b block', t'.blocks.read b = some block' →
    ∃ block, t.blocks.read b = some block ∧ block.data = block'.data
  next : t'.blocks.next = t.blocks.next
  counted : Counted t → Counted t'

theorem BlocksKept.of_eq (h : t'.blocks = t.blocks) : BlocksKept t t' := by
  refine ⟨?_, by rw [h], ?_⟩
  · intro b block hb
    rw [h] at hb
    exact ⟨block, hb, rfl⟩
  · intro ht b block hb
    rw [h] at hb
    exact ht b block hb

theorem BlocksKept.refl (t : PersistentTree K B) : BlocksKept t t := .of_eq rfl

theorem BlocksKept.trans (h : BlocksKept t t') (h' : BlocksKept t' t'') : BlocksKept t t'' := by
  refine ⟨?_, h'.next.trans h.next, fun ht => h'.counted (h.counted ht)⟩
  intro b block hb
  obtain ⟨block', hb', hdata'⟩ := h'.data b block hb
  obtain ⟨block'', hb'', hdata''⟩ := h.data b block' hb'
  exact ⟨block'', hb'', hdata''.trans hdata'⟩

/-- What the steps of a loop keep, the loop keeps. -/
theorem BlocksKept.foldlM {ι : Type} {step : PersistentTree K B → ι → Option (PersistentTree K B)}
    (hstep : ∀ t x t', step t x = some t' → BlocksKept t t') {xs : List ι}
    (h : xs.foldlM step t = some t') : BlocksKept t t' :=
  Lib.foldlM_keeps (fun s x s' hs hx => BlocksKept.trans hs (hstep s x s' hx)) (.refl t) h

theorem blocksKept_refBlock {b : Nat} (h : t.refBlock b = some t') : BlocksKept t t' := by
  simp only [refBlock, Option.bind_eq_bind, Option.bind_eq_some_iff, Option.some.injEq] at h
  obtain ⟨_, -, rfl⟩ := h
  refine ⟨?_, rfl, ?_⟩
  · intro c block hc
    rw [Heap.read_modify] at hc
    split at hc
    · obtain ⟨old, hold, rfl⟩ := Option.map_eq_some_iff.mp hc
      exact ⟨old, hold, rfl⟩
    · exact ⟨block, hc, rfl⟩
  · intro ht c block hc
    rw [Heap.read_modify] at hc
    split at hc
    · obtain ⟨old, hold, rfl⟩ := Option.map_eq_some_iff.mp hc
      have := ht c old hold
      exact Int.add_pos this Int.one_pos
    · exact ht c block hc

theorem blocksKept_unrefBlock {b : Nat} (h : t.unrefBlock b = some t') : BlocksKept t t' := by
  simp only [unrefBlock, Option.bind_eq_bind, Option.bind_eq_some_iff] at h
  obtain ⟨last, hlast, h⟩ := h
  split at h
  · obtain rfl := Option.some.inj h
    refine ⟨?_, rfl, ?_⟩
    · intro c block hc
      rw [Heap.read_free] at hc
      split at hc
      · cases hc
      · exact ⟨block, hc, rfl⟩
    · intro ht c block hc
      rw [Heap.read_free] at hc
      split at hc
      · cases hc
      · exact ht c block hc
  · rename_i hmore
    obtain rfl := Option.some.inj h
    refine ⟨?_, rfl, ?_⟩
    · intro c block hc
      rw [Heap.read_modify] at hc
      split at hc
      · obtain ⟨old, hold, rfl⟩ := Option.map_eq_some_iff.mp hc
        exact ⟨old, hold, rfl⟩
      · exact ⟨block, hc, rfl⟩
    · intro ht c block hc
      rw [Heap.read_modify] at hc
      split at hc
      · rename_i heq
        obtain ⟨old, hold, rfl⟩ := Option.map_eq_some_iff.mp hc
        rw [heq, hlast] at hold
        obtain rfl := Option.some.inj hold
        have := ht b last hlast
        show (0 : Int) < last.refs - 1
        omega
      · exact ht c block hc

theorem blocksKept_refBlocks {es : List (K × Value)} (h : t.refBlocks es = some t') :
    BlocksKept t t' :=
  .foldlM (fun _ _ _ => blocksKept_refBlock) h

theorem blocksKept_unrefBlocks {es : List (K × Value)} (h : t.unrefBlocks es = some t') :
    BlocksKept t t' :=
  .foldlM (fun _ _ _ => blocksKept_unrefBlock) h

theorem blocks_refNode {p : Nat} (h : t.refNode p = some t') : t'.blocks = t.blocks := by
  simp only [refNode, Option.bind_eq_bind, Option.bind_eq_some_iff, Option.some.injEq] at h
  obtain ⟨_, -, rfl⟩ := h
  rfl

theorem blocks_unrefNode {p : Nat} (h : t.unrefNode p = some t') : t'.blocks = t.blocks := by
  simp only [unrefNode, Option.bind_eq_bind, Option.bind_eq_some_iff, Option.some.injEq] at h
  obtain ⟨_, -, _, -, rfl⟩ := h
  rfl

theorem blocks_setRoot {p : Nat} (h : t.setRoot p = some t') : t'.blocks = t.blocks := by
  simp only [setRoot, Option.bind_eq_bind, Option.bind_eq_some_iff] at h
  obtain ⟨t₁, h₁, h₂⟩ := h
  have href := blocks_refNode h₂
  have hunref := blocks_unrefNode h₁
  exact href.trans hunref

theorem blocksKept_cloneNode {p : Nat} (h : t.cloneNode p = some t') : BlocksKept t t' := by
  simp only [cloneNode, Option.bind_eq_bind, Option.bind_eq_some_iff] at h
  obtain ⟨n, -, h⟩ := h
  have hcreate : BlocksKept t (t.createNode n.metadata n.body) := .of_eq rfl
  refine hcreate.trans ?_
  split at h
  · exact blocksKept_refBlocks h
  · exact .foldlM (fun _ _ _ h => .of_eq (blocks_refNode h)) h

theorem blocksKept_clonePath {path path' : List Nat}
    (h : t.clonePath path = some (t', path')) : BlocksKept t t' := by
  induction path generalizing t' path' with
  | nil =>
      obtain ⟨rfl, -⟩ := Prod.mk.inj (Option.some.inj h)
      exact .refl t
  | cons node path ih =>
      cases path with
      | nil =>
          obtain ⟨rfl, -⟩ := Prod.mk.inj (Option.some.inj h)
          exact .refl t
      | cons parent rest =>
          simp only [clonePath, Option.bind_eq_bind, Option.bind_eq_some_iff, Option.some.injEq,
            Prod.mk.injEq] at h
          obtain ⟨⟨t₁, upper⟩, h₁, _, -, es, -, idx, -, t₂, h₂, t₃, h₃, t₄, h₄, rfl, -⟩ := h
          have hcloned : BlocksKept t t₂ := (ih h₁).trans (blocksKept_cloneNode h₂)
          have hunref : BlocksKept t₂ t₃ := .of_eq (blocks_unrefNode h₃)
          have href := blocks_refNode h₄
          exact (hcloned.trans hunref).trans (.of_eq href)

theorem blocksKept_updatePath {path path' : List Nat}
    (h : t.updatePath path = some (t', path')) : BlocksKept t t' := by
  simp only [updatePath, Option.bind_eq_bind, Option.bind_eq_some_iff] at h
  obtain ⟨nodes, -, h⟩ := h
  split at h
  · exact blocksKept_clonePath h
  · obtain ⟨rfl, -⟩ := Prod.mk.inj (Option.some.inj h)
    exact .refl t

section Keys

variable [Inhabited K] {layout : NodeLayout}

theorem blocks_updateKeysUp {path : List Nat} {idx : Nat}
    (h : t.updateKeysUp path idx = some t') : t'.blocks = t.blocks := by
  induction path generalizing t idx with
  | nil => exact congrArg PersistentTree.blocks (Option.some.inj h).symm
  | cons node path ih =>
      cases path with
      | nil => exact congrArg PersistentTree.blocks (Option.some.inj h).symm
      | cons parent rest =>
          simp only [updateKeysUp, Option.bind_eq_bind, Option.bind_eq_some_iff] at h
          obtain ⟨n, -, h⟩ := h
          split at h
          · obtain ⟨es, -, h⟩ := Option.bind_eq_some_iff.mp h
            obtain ⟨i, -, h⟩ := Option.bind_eq_some_iff.mp h
            have hupper := ih h
            exact hupper
          · exact congrArg PersistentTree.blocks (Option.some.inj h).symm

theorem blocks_insertChildNode {p idx child : Nat}
    (h : t.insertChildNode layout p idx child = some t') : t'.blocks = t.blocks := by
  simp only [insertChildNode, Option.bind_eq_bind, Option.bind_eq_some_iff] at h
  obtain ⟨n, -, es, -, _, -, h⟩ := h
  have href := blocks_refNode h
  exact href

theorem blocks_splitPath {level : Nat} {path path' next' : List Nat}
    (h : t.splitPath layout level path = some (t', path', next')) : t'.blocks = t.blocks := by
  induction path generalizing t t' level path' next' with
  | nil => cases h
  | cons node path ih =>
      cases path with
      | nil =>
          simp only [splitPath, Option.bind_eq_bind, Option.bind_eq_some_iff, Option.some.injEq,
            Prod.mk.injEq] at h
          obtain ⟨n, -, root, -, t₁, h₁, t₂, h₂, _, -, t₃, h₃, rfl, -⟩ := h
          rw [blocks_setRoot h₃, blocks_insertChildNode h₂, blocks_insertChildNode h₁]
          rfl
      | cons parent rest =>
          simp only [splitPath, Option.bind_eq_bind, Option.bind_eq_some_iff] at h
          obtain ⟨n, -, es, -, idx, -, t₁, h₁, h⟩ := h
          have hkeys := blocks_updateKeysUp h₁
          change t₁.blocks = t.blocks at hkeys
          split at h
          · simp only [Option.bind_eq_some_iff, Option.some.injEq, Prod.mk.injEq] at h
            obtain ⟨t₂, h₂, t₃, h₃, rfl, -⟩ := h
            rw [blocks_updateKeysUp h₃, blocks_insertChildNode h₂, hkeys]
          · simp only [Option.bind_eq_some_iff] at h
            obtain ⟨⟨t₂, path₂, next₂⟩, h₂, size, -, h⟩ := h
            split at h
            · simp only [Option.bind_eq_some_iff, Option.some.injEq, Prod.mk.injEq] at h
              obtain ⟨_, -, t₃, h₃, t₄, h₄, rfl, -⟩ := h
              rw [blocks_updateKeysUp h₄, blocks_insertChildNode h₃, ih h₂, hkeys]
            · simp only [Option.bind_eq_some_iff, Option.some.injEq, Prod.mk.injEq] at h
              obtain ⟨t₃, h₃, t₄, h₄, rfl, -⟩ := h
              rw [blocks_updateKeysUp h₄, blocks_insertChildNode h₃, ih h₂, hkeys]

omit [Inhabited K] in
theorem blocks_insertLeaf {leaf idx : Nat} {key : K} {value : Value}
    (h : t.insertLeaf layout leaf idx key value = some t') : t'.blocks = t.blocks := by
  simp only [insertLeaf, Option.bind_eq_bind, Option.bind_eq_some_iff, Option.some.injEq] at h
  obtain ⟨es, -, _, -, rfl⟩ := h
  rfl

theorem blocks_insertAt {path : List Nat} {idx : Nat} {key : K} {value : Value}
    (h : t.insertAt layout path idx key value = some t') : t'.blocks = t.blocks := by
  simp only [insertAt, Option.bind_eq_bind, Option.bind_eq_some_iff] at h
  obtain ⟨leaf, -, es, -, h⟩ := h
  split at h
  · exact blocks_insertLeaf h
  · simp only [Option.bind_eq_some_iff] at h
    obtain ⟨⟨t₁, path₁, next₁⟩, h₁, left, -, h⟩ := h
    split at h
    · simp only [Option.bind_eq_some_iff] at h
      obtain ⟨right, -, t₂, h₂, h₃⟩ := h
      rw [blocks_updateKeysUp h₃, blocks_insertLeaf h₂, blocks_splitPath h₁]
    · simp only [Option.bind_eq_some_iff] at h
      obtain ⟨t₂, h₂, h₃⟩ := h
      rw [blocks_updateKeysUp h₃, blocks_insertLeaf h₂, blocks_splitPath h₁]

theorem blocksKept_insertTo {iter : Iter} {key : K} {value : Value}
    (h : t.insertTo layout iter key value = some t') : BlocksKept t t' := by
  simp only [insertTo, Option.bind_eq_bind, Option.bind_eq_some_iff, Option.some.injEq] at h
  obtain ⟨⟨t₁, path⟩, h₁, t₂, h₂, rfl⟩ := h
  have hinsert := blocks_insertAt h₂
  exact (blocksKept_updatePath h₁).trans (.of_eq hinsert)

theorem blocks_mergeNodes {node right : Nat} {upper upper' : List Nat}
    (h : t.mergeNodes layout node right upper = some (t', upper')) : t'.blocks = t.blocks := by
  simp only [mergeNodes, Option.bind_eq_bind, Option.bind_eq_some_iff] at h
  obtain ⟨parent, -, es, -, idx, -, n, -, r, -, merged, -, _, -, _, -, t₁, h₁, h⟩ := h
  have hkeys := blocks_updateKeysUp h₁
  change t₁.blocks = t.blocks at hkeys
  split at h
  · simp only [Option.bind_eq_some_iff, Option.some.injEq, Prod.mk.injEq] at h
    obtain ⟨root, -, t₂, h₂, t₃, h₃, _, -, _, -, rfl, -⟩ := h
    change t₃.blocks = t.blocks
    rw [blocks_unrefNode h₃, blocks_setRoot h₂]
    exact hkeys
  · obtain ⟨rfl, -⟩ := Prod.mk.inj (Option.some.inj h)
    exact hkeys

theorem blocks_mergePaths {path next path' : List Nat}
    (h : t.mergePaths layout path next = some (t', path')) : t'.blocks = t.blocks := by
  induction path generalizing t t' next path' with
  | nil => cases h
  | cons node path ih =>
      cases path with
      | nil => cases h
      | cons parent rest =>
          cases next with
          | nil => cases h
          | cons right next =>
              cases next with
              | nil => cases h
              | cons nextParent nextRest =>
                  simp only [mergePaths, Option.bind_eq_bind] at h
                  split at h
                  · simp only [Option.bind_eq_some_iff, Option.some.injEq, Prod.mk.injEq] at h
                    obtain ⟨⟨t₁, upper⟩, h₁, rfl, -⟩ := h
                    exact blocks_mergeNodes h₁
                  · simp only [Option.bind_eq_some_iff, Option.some.injEq, Prod.mk.injEq] at h
                    obtain ⟨⟨t₁, upper⟩, h₁, ⟨t₂, upper₂⟩, h₂, rfl, -⟩ := h
                    rw [blocks_mergeNodes h₂, ih h₁]

theorem blocksKept_mergeAfterRemove {path : List Nat}
    (h : t.mergeAfterRemove layout path = some t') : BlocksKept t t' := by
  have hmerge : ∀ {cloned cloned' left right upper : List Nat} {t₁ : PersistentTree K B},
      t.updatePath cloned = some (t₁, cloned') →
      t₁.mergePaths layout left right = some (t', upper) → BlocksKept t t' := by
    intro _ _ _ _ _ _ h₁ h₂
    exact (blocksKept_updatePath h₁).trans (.of_eq (blocks_mergePaths h₂))
  have hnone : some t = some t' → BlocksKept t t' := by
    intro heq
    obtain rfl := Option.some.inj heq
    exact .refl t
  simp only [mergeAfterRemove, Option.bind_eq_bind, Option.bind_eq_some_iff] at h
  obtain ⟨leaf, -, es, -, h⟩ := h
  split at h
  · obtain ⟨found, -, h⟩ := Option.bind_eq_some_iff.mp h
    cases found with
    | some next =>
        obtain ⟨can, -, h⟩ := Option.bind_eq_some_iff.mp h
        split at h
        · simp only [Option.bind_eq_some_iff] at h
          obtain ⟨⟨t₁, next₁⟩, h₁, ⟨t₂, upper⟩, h₂, h⟩ := h
          obtain rfl := Option.some.inj h
          exact hmerge h₁ h₂
        · exact hnone h
    | none =>
        obtain ⟨found, -, h⟩ := Option.bind_eq_some_iff.mp h
        cases found with
        | none => exact hnone h
        | some prev =>
            obtain ⟨can, -, h⟩ := Option.bind_eq_some_iff.mp h
            split at h
            · simp only [Option.bind_eq_some_iff] at h
              obtain ⟨⟨t₁, prev₁⟩, h₁, ⟨t₂, upper⟩, h₂, h⟩ := h
              obtain rfl := Option.some.inj h
              exact hmerge h₁ h₂
            · exact hnone h
  · exact hnone h

theorem blocksKept_removeFrom {iter : Iter} (h : t.removeFrom layout iter = some t') :
    BlocksKept t t' := by
  simp only [removeFrom, Option.bind_eq_bind, Option.bind_eq_some_iff] at h
  obtain ⟨⟨t₁, path⟩, h₁, leaf, -, es, -, e, -, t₂, h₂, t₃, h₃, h₄⟩ := h
  have hunref : BlocksKept t t₂ := (blocksKept_updatePath h₁).trans (blocksKept_unrefBlock h₂)
  have hkeys := blocks_updateKeysUp h₃
  have hsize : BlocksKept t₂ (t₃.addSize (-1)) := .of_eq hkeys
  exact (hunref.trans hsize).trans (blocksKept_mergeAfterRemove h₄)

end Keys

section Api

variable [Inhabited K] [LinearOrder K] {layout : NodeLayout} {key : K}

theorem blocksKept_assign {value : Value} {old : Option Value}
    (h : t.assign layout key value = some (t', old)) : BlocksKept t t' := by
  have hinsert : ∀ {iter : Iter}, ((t.insertTo layout iter key value).bind fun t =>
      some (t, (none : Option Value))) = some (t', old) → BlocksKept t t' := by
    intro iter h
    obtain ⟨t₁, h₁, h⟩ := Option.bind_eq_some_iff.mp h
    obtain ⟨rfl, -⟩ := Prod.mk.inj (Option.some.inj h)
    exact blocksKept_insertTo h₁
  simp only [assign, Option.bind_eq_bind, Option.bind_eq_some_iff] at h
  obtain ⟨iter, -, leaf, -, es, -, h⟩ := h
  split at h
  · split at h
    · simp only [Option.bind_eq_some_iff, Option.some.injEq, Prod.mk.injEq] at h
      obtain ⟨⟨t₁, path⟩, h₁, _, -, _, -, rfl, -⟩ := h
      exact (blocksKept_updatePath h₁).trans (.of_eq rfl)
    · exact hinsert h
  · exact hinsert h

theorem blocksKept_remove {found : Bool} (h : t.remove layout key = some (t', found)) :
    BlocksKept t t' := by
  simp only [remove, Option.bind_eq_bind, Option.bind_eq_some_iff] at h
  obtain ⟨iter, -, atEnd, -, h⟩ := h
  split at h
  · obtain ⟨rfl, -⟩ := Prod.mk.inj (Option.some.inj h)
    exact .refl t
  · obtain ⟨t₁, h₁, h⟩ := Option.bind_eq_some_iff.mp h
    obtain ⟨rfl, -⟩ := Prod.mk.inj (Option.some.inj h)
    exact blocksKept_removeFrom h₁

end Api

theorem blocksKept_deleteNode {fuel p : Nat} (h : t.deleteNode fuel p = some t') :
    BlocksKept t t' := by
  induction fuel generalizing t t' p with
  | zero => cases h
  | succ fuel ih =>
      simp only [deleteNode, Option.bind_eq_bind, Option.bind_eq_some_iff] at h
      obtain ⟨n, -, t₁, h₁, h⟩ := h
      have hunref : BlocksKept t t₁ := .of_eq (blocks_unrefNode h₁)
      refine hunref.trans ?_
      split at h
      · split at h
        · obtain ⟨t₂, h₂, h⟩ := Option.bind_eq_some_iff.mp h
          obtain rfl := Option.some.inj h
          exact (blocksKept_unrefBlocks h₂).trans (.of_eq rfl)
        · obtain ⟨t₂, h₂, h⟩ := Option.bind_eq_some_iff.mp h
          obtain rfl := Option.some.inj h
          have hchildren : BlocksKept t₁ t₂ := .foldlM (fun _ _ _ h => ih h) h₂
          exact hchildren.trans (.of_eq rfl)
      · obtain rfl := Option.some.inj h
        exact .refl t₁

end Memoria.PersistentTree

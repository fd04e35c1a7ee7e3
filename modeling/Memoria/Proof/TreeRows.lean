import Memoria.Proof.TreeUpdateState

/-!
# The nodes of a level

The nodes of a level are the children of the nodes of the level above, one after the other. A branch
that is split leaves the levels below it as they are, and a child behind another one stands behind
it in its level too.
-/

namespace Memoria.TreeUpdate

variable {E D : Type} {s s' : TreeState E D} {level lower : ℕ}

theorem ne_of_nodup_middle {α : Type} {xs ys : List α} {a b : α}
    (hnodup : (xs ++ a :: ys).Nodup) (hb : b ∈ xs ++ ys) : b ≠ a := by
  rintro rfl
  exact (List.nodup_cons.mp (List.nodup_middle.mp hnodup)).1 hb

/-- An element that is inserted behind another one. -/
theorem exists_insertIdx_succ {α : Type} {l : List α} {idx : ℕ} {a : α} (x : α)
    (ha : l[idx]? = some a) :
    ∃ as bs, l = as ++ a :: bs ∧ l.insertIdx (idx + 1) x = as ++ a :: x :: bs := by
  induction l generalizing idx with
  | nil => exact absurd ha (Option.some_ne_none a).symm
  | cons y l ih =>
      cases idx with
      | zero =>
          obtain rfl := Option.some.inj ha
          exact ⟨[], l, rfl, rfl⟩
      | succ idx =>
          obtain ⟨as, bs, hl, hinsert⟩ := ih ha
          refine ⟨y :: as, bs, congrArg (y :: ·) hl, ?_⟩
          rw [List.insertIdx_succ_cons, hinsert, List.cons_append]

theorem TreeState.childrenOf_eq {id : ℕ} {block : Block E D} (hblock : s.store id = some block) :
    s.childrenOf id = block.children := by
  rw [TreeState.childrenOf, hblock]

theorem TreeState.childrenOf_congr {id : ℕ} (hstore : s'.store id = s.store id) :
    s'.childrenOf id = s.childrenOf id := by
  rw [TreeState.childrenOf, TreeState.childrenOf, hstore]

theorem row_top (s : TreeState E D) :
    s.row (s.path.size - 1) = [s.path.nodes (s.path.size - 1)] := by
  rw [TreeState.row, Nat.sub_self]
  rfl

theorem row_succ (hlt : level + 1 < s.path.size) :
    s.row level = (s.row (level + 1)).flatMap s.childrenOf := by
  have hdepth : s.path.size - 1 - level = (s.path.size - 1 - (level + 1)) + 1 := by omega
  rw [TreeState.row, hdepth]
  rfl

/-- From the root down to a level. -/
theorem levels_down {P : ℕ → Prop} {top : ℕ} (htop : P top)
    (hstep : ∀ k, level ≤ k → k < top → P (k + 1) → P k) (hle : level ≤ top) : P level :=
  Nat.decreasingInduction' (fun k hk hlow ih => hstep k hlow hk ih) hle htop

section Nodes

variable (hsound : Sound s) (hspine : Spine s lower)

include hspine

theorem Spine.root : ∃ block, s.store (s.path.nodes (s.path.size - 1)) = some block ∧
    block.level = s.path.size - 1 := by
  have hlt := hspine.lt_size
  obtain ⟨block, hblock, hlevel, -⟩ := hspine.node (s.path.size - 1) (by omega) (by omega)
  exact ⟨block, hblock, hlevel⟩

include hsound

theorem row_level (hlt : level < s.path.size) :
    ∀ id ∈ s.row level, ∃ block, s.store id = some block ∧ block.level = level := by
  refine levels_down (P := fun k => ∀ id ∈ s.row k, ∃ block, s.store id = some block ∧
    block.level = k) ?_ ?_ (Nat.le_sub_one_of_lt hlt)
  · intro id hid
    rw [row_top, List.mem_singleton] at hid
    exact hid ▸ hspine.root
  · intro k _ hk ih id hid
    rw [row_succ (by omega), List.mem_flatMap] at hid
    obtain ⟨node, hnode, hid⟩ := hid
    obtain ⟨block, hblock, hlevel⟩ := ih node hnode
    rw [TreeState.childrenOf_eq hblock] at hid
    obtain ⟨child, hchild, hclevel, -⟩ := hsound.child node block hblock id hid
    exact ⟨child, hchild, by omega⟩

theorem row_nodup (hlt : level < s.path.size) : (s.row level).Nodup := by
  refine levels_down (P := fun k => (s.row k).Nodup) ?_ ?_ (Nat.le_sub_one_of_lt hlt)
  · rw [row_top]
    exact List.nodup_singleton _
  · intro k _ hk ih
    rw [row_succ (by omega), List.nodup_flatMap]
    constructor
    · intro node hnode
      obtain ⟨block, hblock, -⟩ := row_level hsound hspine (by omega) node hnode
      rw [TreeState.childrenOf_eq hblock]
      exact hsound.nodup node block hblock
    · refine ih.imp_of_mem ?_
      intro a b ha hb hne c hca hcb
      obtain ⟨A, hA, -⟩ := row_level hsound hspine (by omega) a ha
      obtain ⟨B, hB, -⟩ := row_level hsound hspine (by omega) b hb
      rw [TreeState.childrenOf_eq hA] at hca
      rw [TreeState.childrenOf_eq hB] at hcb
      exact hne (hsound.single a A b B c hA hB hca hcb)

end Nodes

theorem node_mem_row (hspine : Spine s lower) (hle : lower ≤ level) (hlt : level < s.path.size) :
    s.path.nodes level ∈ s.row level := by
  refine levels_down (P := fun k => s.path.nodes k ∈ s.row k) ?_ ?_ (Nat.le_sub_one_of_lt hlt)
  · rw [row_top]
    exact List.mem_singleton_self _
  · intro k hk hklt ih
    obtain ⟨block, hblock, hchild⟩ := hspine.link k (hle.trans hk) (by omega)
    rw [row_succ (by omega), List.mem_flatMap]
    exact ⟨_, ih, by rwa [TreeState.childrenOf_eq hblock]⟩

/-- A level depends on the children of the nodes above it. -/
theorem row_congr (hpath : s'.path.size = s.path.size)
    (hroot : s'.path.nodes (s.path.size - 1) = s.path.nodes (s.path.size - 1))
    (hlt : level < s.path.size) (hchildren : ∀ k, level < k → k < s.path.size →
      ∀ id ∈ s.row k, s'.childrenOf id = s.childrenOf id) : s'.row level = s.row level := by
  refine levels_down (P := fun k => s'.row k = s.row k) ?_ ?_ (Nat.le_sub_one_of_lt hlt)
  · have htop := row_top s'
    rw [hpath, hroot] at htop
    rw [htop, row_top]
  · intro k hk hklt ih
    have hrow' : s'.row k = (s'.row (k + 1)).flatMap s'.childrenOf := row_succ (by omega)
    have hrow : s.row k = (s.row (k + 1)).flatMap s.childrenOf := row_succ (by omega)
    rw [hrow', hrow, ih]
    exact List.flatMap_congr fun id hid => hchildren (k + 1) (by omega) (by omega) id hid

/-- It depends on the blocks above it only. -/
theorem row_of_blocks (hsound : Sound s) (hspine : Spine s lower)
    (hpath : s'.path.size = s.path.size)
    (hroot : s'.path.nodes (s.path.size - 1) = s.path.nodes (s.path.size - 1))
    (hlt : level < s.path.size) (hblocks : ∀ id block, s.store id = some block →
      level < block.level → s'.store id = some block) : s'.row level = s.row level := by
  refine row_congr hpath hroot hlt fun k hk hklt id hid => ?_
  obtain ⟨block, hblock, hlevel⟩ := row_level hsound hspine hklt id hid
  exact TreeState.childrenOf_congr ((hblocks id block hblock (by omega)).trans hblock.symm)

/-- Blocks that stay as they are, below a level that stays as it is. -/
theorem row_lower {linked : ℕ → Prop} (hsound : Sound s) (hspine : Spine s lower)
    (hkeeps : Keeps s s' (level + 1) linked) (hrow : s'.row level = s.row level)
    (hlt : level < s.path.size) (hlt' : level < s'.path.size) {k : ℕ} (hk : k ≤ level) :
    s'.row k = s.row k := by
  refine levels_down (P := fun k => s'.row k = s.row k) hrow ?_ hk
  intro j _ hj ih
  have hrow' : s'.row j = (s'.row (j + 1)).flatMap s'.childrenOf := row_succ (by omega)
  have hrow₀ : s.row j = (s.row (j + 1)).flatMap s.childrenOf := row_succ (by omega)
  rw [hrow', hrow₀, ih]
  refine List.flatMap_congr fun id hid => ?_
  obtain ⟨block, hblock, hlevel⟩ := row_level hsound hspine (by omega) id hid
  have hblock' := (hkeeps.blocks id block (by omega)).mpr hblock
  exact TreeState.childrenOf_congr (hblock'.trans hblock.symm)

section Siblings

variable {xs ys : List ℕ} (hlt : level + 1 < s.path.size) (hlt' : level + 1 < s'.path.size)
  (hsame : ∀ id ∈ xs ++ ys, s'.childrenOf id = s.childrenOf id)

include hlt hlt' hsame

/-- A node and its right half have the children that the node had. -/
theorem row_split {left right : ℕ} (hrow : s.row (level + 1) = xs ++ left :: ys)
    (hrow' : s'.row (level + 1) = xs ++ left :: right :: ys)
    (hhalves : s.childrenOf left = s'.childrenOf left ++ s'.childrenOf right) :
    s'.row level = s.row level := by
  have hxs : xs.flatMap s'.childrenOf = xs.flatMap s.childrenOf :=
    List.flatMap_congr fun id hid => hsame id (List.mem_append_left ys hid)
  have hys : ys.flatMap s'.childrenOf = ys.flatMap s.childrenOf :=
    List.flatMap_congr fun id hid => hsame id (List.mem_append_right xs hid)
  rw [row_succ hlt, row_succ hlt', hrow, hrow', List.flatMap_append, List.flatMap_append,
    List.flatMap_cons, List.flatMap_cons, List.flatMap_cons, hxs, hys, hhalves, List.append_assoc]

/-- A child that is put behind another one. -/
theorem row_insert {parent c d : ℕ} {as bs : List ℕ}
    (hrow : s.row (level + 1) = xs ++ parent :: ys) (hrow' : s'.row (level + 1) = s.row (level + 1))
    (hchildren : s.childrenOf parent = as ++ c :: bs)
    (hchildren' : s'.childrenOf parent = as ++ c :: d :: bs) :
    ∃ before behind, s.row level = before ++ c :: behind ∧
      s'.row level = before ++ c :: d :: behind := by
  have hxs : xs.flatMap s'.childrenOf = xs.flatMap s.childrenOf :=
    List.flatMap_congr fun id hid => hsame id (List.mem_append_left ys hid)
  have hys : ys.flatMap s'.childrenOf = ys.flatMap s.childrenOf :=
    List.flatMap_congr fun id hid => hsame id (List.mem_append_right xs hid)
  refine ⟨xs.flatMap s.childrenOf ++ as, bs ++ ys.flatMap s.childrenOf, ?_, ?_⟩
  · rw [row_succ hlt, hrow, List.flatMap_append, List.flatMap_cons, hchildren]
    simp only [List.append_assoc, List.cons_append]
  · rw [row_succ hlt', hrow', hrow, List.flatMap_append, List.flatMap_cons, hchildren', hxs, hys]
    simp only [List.append_assoc, List.cons_append]

end Siblings

end Memoria.TreeUpdate

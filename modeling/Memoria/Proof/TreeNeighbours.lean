import Memoria.Lib.Neighbours
import Memoria.Proof.TreeRows

/-!
# The node before and the node behind

A path goes to the next node of a level through the next node of the level above, where the parent
has no more children. It gets there unless a branch without children is in the way.
-/

namespace Memoria.TreeUpdate

open Lib Prog

variable {E D : Type} {s : TreeState E D} {level : ℕ} {path : TreePath} {forward : Bool}

abbrev TreeState.along (s : TreeState E D) (path : TreePath) : TreeState E D :=
  { s with path := path }

def Moved (s : TreeState E D) (forward : Bool) (level : ℕ) (path : TreePath) :
    Except Failure (Bool × TreePath) → Prop
  | .ok (true, path') =>
      Beyond forward ((s.along path).row level) (path.nodes level) (some (path'.nodes level)) ∧
        Spine (s.along path') level ∧ path'.size = path.size ∧
        path'.nodes (path.size - 1) = path.nodes (path.size - 1) ∧
        ∀ k < level, path'.nodes k = path.nodes k
  | .ok (false, path') =>
      path' = path ∧ Beyond forward ((s.along path).row level) (path.nodes level) none
  | .error failure =>
      failure = .generic ∧ ∃ id block, s.store id = some block ∧ level < block.level ∧
        block.entries = []

theorem Spine.to_child (hsound : Sound s) (hspine : Spine (s.along path) (level + 1))
    {parent : Block E D} (hparent : s.store (path.nodes (level + 1)) = some parent) {e : E × ℕ}
    (he : e ∈ parent.entries) : Spine (s.along (path.set level e.2)) level := by
  have hold (k : ℕ) (hk : level < k) : (path.set level e.2).nodes k = path.nodes k :=
    Function.update_of_ne hk.ne' ..
  have hself : (path.set level e.2).nodes level = e.2 := Function.update_self ..
  have hmoved := hspine.withPath (path.set level e.2) rfl fun k hk => hold k (by omega)
  obtain ⟨child, hchild, hlevel, hroot⟩ :=
    hsound.child _ parent hparent e.2 (Block.mem_children he)
  obtain ⟨parent', hparent', hplevel, -⟩ := hspine.at_level
  obtain rfl := Option.some.inj (hparent.symm.trans hparent')
  refine hmoved.below child parent ?_ (by omega) hroot ?_ ?_
  · exact (congrArg s.store hself).trans hchild
  · exact (congrArg s.store (hold (level + 1) (Nat.lt_succ_self level))).trans hparent
  · exact hself.symm ▸ Block.mem_children he

/-- The neighbour of a child in its parent. -/
theorem beyond_of_entry {parent : Block E D} {idx : ℕ} {e : E × ℕ}
    (he : parent.entries[idx]? = some e) : Beyond forward parent.children e.2
      ((if forward then parent.entries[idx + 1]? else if 0 < idx then parent.entries[idx - 1]?
        else none).map Prod.snd) := by
  have hchild : parent.children[idx]? = some e.2 := by
    rw [Block.children, List.getElem?_map, he]
    rfl
  have hbeyond : Beyond forward parent.children e.2 _ := beyond_of_getElem? hchild
  simp only [Block.children, List.getElem?_map] at hbeyond
  cases forward with
  | true => exact hbeyond
  | false =>
      by_cases hidx : 0 < idx
      · simp only [Bool.false_eq_true, if_false, if_pos hidx] at hbeyond ⊢
        exact hbeyond
      · simp only [Bool.false_eq_true, if_false, if_neg hidx] at hbeyond ⊢
        exact hbeyond

/-- The child at the near end of a branch. -/
theorem nearest_child (block : Block E D) : (if forward then block.children.head? else
    block.children.getLast?) =
      (block.entries[if forward then 0 else block.entries.length - 1]?).map Prod.snd := by
  cases forward with
  | true =>
      simp only [if_true, Block.children, List.head?_eq_getElem?, List.getElem?_map]
  | false =>
      simp only [Bool.false_eq_true, if_false, Block.children, List.getLast?_eq_getElem?,
        List.getElem?_map, List.length_map]

theorem enterParent_spec (hsound : Sound s) {parent : Block E D}
    (hspine : Spine (s.along path) (level + 1))
    (hparent : s.store (path.nodes (level + 1)) = some parent)
    (hend : Beyond forward parent.children (path.nodes level) none) {found : Bool}
    {path' : TreePath} (hmoved : Moved s forward (level + 1) path (.ok (found, path'))) :
    ∃ result, (enterParent forward level found path' : Op E D (Bool × TreePath)).outcome s =
      some (result, s) ∧ Moved s forward level path result := by
  have hlt := hspine.lt_size
  have hrow : (s.along path).row level =
      ((s.along path).row (level + 1)).flatMap s.childrenOf := row_succ hlt
  have hchildren : s.childrenOf (path.nodes (level + 1)) = parent.children :=
    TreeState.childrenOf_eq hparent
  cases found with
  | false =>
      obtain ⟨rfl, hlast⟩ := hmoved
      refine ⟨_, rfl, rfl, ?_⟩
      rw [hrow]
      exact Beyond.flatMap_end (hchildren.symm ▸ hend) hlast
  | true =>
      obtain ⟨hnext, hspine', hsize, hroot, hlower⟩ := hmoved
      obtain ⟨block, hblock, hblevel, -⟩ := hspine'.at_level
      have hblock' : s.store (path'.nodes (level + 1)) = some block := hblock
      rw [enterParent, if_pos rfl, bind_outcome (pathNode_outcome s hspine'.lt_size),
        bind_outcome (getBlock_outcome hblock'), goToChild]
      cases he : block.entries[if forward then 0 else block.entries.length - 1]? with
      | none =>
          refine ⟨.error .generic, ?_, rfl, _, block, hblock', by omega, ?_⟩
          · rfl
          · rw [List.getElem?_eq_none_iff] at he
            refine List.eq_nil_of_length_eq_zero ?_
            cases forward with
            | true => exact Nat.eq_zero_of_le_zero he
            | false =>
                simp only [Bool.false_eq_true, if_false] at he
                omega
      | some e =>
          have hself : (path'.set level e.2).nodes level = e.2 := Function.update_self ..
          refine ⟨.ok (true, path'.set level e.2), ?_, ?_, ?_, hsize, ?_, ?_⟩
          · rfl
          · rw [hrow, hself]
            refine Beyond.flatMap_next (hchildren.symm ▸ hend) hnext ?_
            rw [TreeState.childrenOf_eq hblock', nearest_child, he]
            rfl
          · exact hspine'.to_child hsound hblock' (List.mem_of_getElem? he)
          · refine (Function.update_of_ne ?_ ..).trans hroot
            have hlt' : level + 1 < path.size := hlt
            omega
          · intro k hk
            exact (Function.update_of_ne hk.ne ..).trans (hlower k (by omega))

variable (forward) in
/-- A move ends next to the node, at the end of its level, or in an error at a branch without
children. -/
theorem adjacentNode_spec (hsound : Sound s) (hspine : Spine (s.along path) level) :
    ∃ result, (adjacentNode forward (path.size - (level + 1)) path level :
      Op E D (Bool × TreePath)).outcome s = some (result, s) ∧
        Moved s forward level path result := by
  induction hlevels : path.size - (level + 1) generalizing level with
  | zero =>
      obtain ⟨block, hblock, -, hroot⟩ := hspine.at_level
      have hblock' : s.store (path.nodes level) = some block := hblock
      have hlt : level < path.size := hspine.lt_size
      have hisroot : block.isRoot = true := hroot.mpr (show level + 1 = path.size by omega)
      refine ⟨.ok (false, path), ?_, rfl, ?_⟩
      · rw [adjacentNode, bind_outcome (pathNode_outcome s hspine.lt_size),
          bind_outcome (getBlock_outcome hblock'), if_pos hisroot]
        rfl
      · have htop := row_top (s.along path)
        have hlast : (s.along path).path.size - 1 = level := (by omega : path.size - 1 = level)
        rw [hlast] at htop
        rw [htop]
        cases forward <;> exact ⟨[], [], rfl, rfl⟩
  | succ levels ih =>
      obtain ⟨block, hblock, -, hroot⟩ := hspine.at_level
      have hblock' : s.store (path.nodes level) = some block := hblock
      have hsize : level + 1 < path.size := by omega
      have hnot : ¬ block.isRoot = true := by
        intro h
        have heq : level + 1 = path.size := hroot.mp h
        omega
      obtain ⟨parent, hparent, hchild⟩ := hspine.link level le_rfl hsize
      have hparent' : s.store (path.nodes (level + 1)) = some parent := hparent
      have hupper : Spine (s.along path) (level + 1) := hspine.mono (Nat.le_succ level) hsize
      obtain ⟨idx, hidx⟩ := Block.exists_findChildIdx hchild
      obtain ⟨e, he, hid⟩ := Block.findChildIdx_some hidx
      have hget : (getChildIdx parent (path.nodes level) : Op E D ℕ).outcome s =
          some (.ok idx, s) := by
        rw [getChildIdx, hidx]
        rfl
      have hbeyond : Beyond forward parent.children e.2 _ := beyond_of_entry he
      rw [hid] at hbeyond
      rw [adjacentNode, bind_outcome (pathNode_outcome s hspine.lt_size),
        bind_outcome (getBlock_outcome hblock'), if_neg hnot]
      change ∃ result, ((pathNode path (level + 1) >>= _ : Op E D _).outcome s) = _ ∧ _
      rw [bind_outcome (pathNode_outcome s hsize), bind_outcome (getBlock_outcome hparent'),
        bind_outcome hget]
      by_cases hcond : (if forward then idx + 1 < parent.entries.length else 0 < idx)
      · rw [if_pos hcond]
        obtain ⟨e', he', hbeyond'⟩ : ∃ e', parent.entries[if forward then idx + 1 else idx - 1]? =
            some e' ∧ Beyond forward parent.children (path.nodes level) (some e'.2) := by
          have hlt := (List.getElem?_eq_some_iff.mp he).1
          cases forward with
          | true =>
              have hget := List.getElem?_eq_getElem (show idx + 1 < _ from hcond)
              refine ⟨_, hget, ?_⟩
              simpa only [if_true, hget, Option.map_some] using hbeyond
          | false =>
              have hpos : 0 < idx := hcond
              have hget := List.getElem?_eq_getElem (show idx - 1 < parent.entries.length by omega)
              refine ⟨_, hget, ?_⟩
              simpa only [Bool.false_eq_true, if_false, if_pos hpos, hget, Option.map_some]
                using hbeyond
        have hself : (path.set level e'.2).nodes level = e'.2 := Function.update_self ..
        refine ⟨.ok (true, path.set level e'.2), ?_, ?_,
          hupper.to_child hsound hparent' (List.mem_of_getElem? he'), rfl, ?_, ?_⟩
        · rw [goToChild, he']
          rfl
        · rw [hself]
          have hrow : (s.along path).row level =
              ((s.along path).row (level + 1)).flatMap s.childrenOf := row_succ hsize
          rw [hrow]
          refine Beyond.flatMap_same (node_mem_row hupper le_rfl hsize) ?_
          rwa [TreeState.childrenOf_eq hparent']
        · exact Function.update_of_ne (by omega) ..
        · exact fun k hk => Function.update_of_ne hk.ne ..
      · rw [if_neg hcond]
        have hlast : Beyond forward parent.children (path.nodes level) none := by
          cases forward with
          | true =>
              have hget : parent.entries[idx + 1]? = none :=
                List.getElem?_eq_none (Nat.le_of_not_lt hcond)
              simpa only [if_true, hget, Option.map_none] using hbeyond
          | false =>
              have hzero : ¬ 0 < idx := hcond
              simpa only [Bool.false_eq_true, if_false, if_neg hzero, Option.map_none] using hbeyond
        obtain ⟨result, hout, hmoved⟩ := ih hupper (by omega)
        cases result with
        | ok result =>
            rw [bind_outcome hout]
            exact enterParent_spec hsound hupper hparent' hlast hmoved
        | error failure =>
            obtain ⟨rfl, id, b, hb, hblevel, hempty⟩ := hmoved
            exact ⟨_, bind_outcome_error hout, rfl, id, b, hb, by omega, hempty⟩

end Memoria.TreeUpdate

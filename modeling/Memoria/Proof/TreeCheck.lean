import Memoria.TreeCheck

/-!
# What the check finds

The loop over the children returns in its first round, so the check follows the first children from
the root down and sees a fault only there.
-/

namespace Memoria.BTree

variable {I E L : Type} {packed : Packed I E L} {store : Store I E L}

def SpineFaultFrom (packed : Packed I E L) (store : Store I E L) (node : Node I E L) : Prop :=
  ∃ below, Relation.ReflTransGen (fun node child => ChildAt store node 0 child) node below
    ∧ (NodeFault packed below ∨ EntryFault packed store below 0)

theorem spineFaultFrom_iff (node : Node I E L) :
    SpineFaultFrom packed store node ↔ NodeFault packed node ∨ EntryFault packed store node 0
      ∨ ∃ child, ChildAt store node 0 child ∧ SpineFaultFrom packed store child := by
  constructor
  · rintro ⟨below, hreach, hfault⟩
    obtain rfl | ⟨child, hchild, hreach⟩ := hreach.cases_head
    · exact hfault.imp_right Or.inl
    · exact Or.inr (Or.inr ⟨child, hchild, below, hreach, hfault⟩)
  · rintro (hfault | hfault | ⟨child, hchild, below, hreach, hfault⟩)
    · exact ⟨node, .refl, Or.inl hfault⟩
    · exact ⟨node, .refl, Or.inr hfault⟩
    · exact ⟨below, hreach.head hchild, hfault⟩

section Check

def Stale (packed : Packed I E L) (parent : Option (Node I E L)) (idx : Nat) (node : Node I E L) :
    Prop :=
  node.isRoot = false ∧ ∃ p e, parent = some p ∧ p.entries[idx]? = some e
    ∧ e.1 ≠ packed.max node.body

def Placed (parent : Option (Node I E L)) (idx : Nat) (node : Node I E L) : Prop :=
  node.isRoot = false → ∃ p e, parent = some p ∧ p.entries[idx]? = some e

variable {parent : Option (Node I E L)} {idx height fuel : Nat} {node : Node I E L}

theorem Subtree.entries_eq_nil (h : Subtree store 0 node) : node.entries = [] := by
  obtain ⟨id, isRoot, body⟩ := node
  cases body with
  | leaf data => rfl
  | branch entries => cases h

/-- A node without entries has nothing below it. -/
theorem spineFaultFrom_of_nil (hnil : node.entries = []) :
    SpineFaultFrom packed store node ↔ NodeFault packed node := by
  have hnone : node.entries[0]? = none := by rw [hnil]; rfl
  rw [spineFaultFrom_iff]
  simp [EntryFault, ChildAt, hnone]

section First

variable {e : E × I} {child : Node I E L} (hfirst : node.entries[0]? = some e)

include hfirst

theorem spineFaultFrom_of_first (hget : store e.2 = some child) :
    SpineFaultFrom packed store node ↔ NodeFault packed node
      ∨ (child.id ≠ e.2 ∨ e.1 ≠ packed.max child.body) ∨ SpineFaultFrom packed store child := by
  have hentry : EntryFault packed store node 0
      ↔ child.id ≠ e.2 ∨ e.1 ≠ packed.max child.body := by
    simp only [EntryFault, hfirst, Option.some.injEq, exists_and_left, exists_eq_left', hget]
  have hbelow : (∃ c, ChildAt store node 0 c ∧ SpineFaultFrom packed store c)
      ↔ SpineFaultFrom packed store child := by
    simp only [ChildAt, hfirst, Option.some.injEq, exists_eq_left', hget]
  rw [spineFaultFrom_iff, hentry, hbelow]

theorem stale_child_iff (hroot : child.isRoot = false) :
    Stale packed (some node) 0 child ↔ e.1 ≠ packed.max child.body := by
  constructor
  · rintro ⟨-, p, e', hp, he', hne⟩
    obtain rfl := Option.some.inj hp
    obtain rfl : e = e' := Option.some.inj (hfirst.symm.trans he')
    exact hne
  · intro hne
    exact ⟨hroot, node, e, rfl, hfirst, hne⟩

end First

variable [DecidableEq E]

/-- Besides what was found before, the check is about the entry of the node and about branches
without entries. -/
theorem ctrCheckNonRoot_spec (hplaced : Placed parent idx node) (hroot : node.isRoot = false)
    (errors : Bool) :
    ∃ b, ctrCheckNonRoot packed parent idx node errors = some b
      ∧ (b = true ↔ errors = true ∨ Stale packed parent idx node
        ∨ (node.isLeaf = false ∧ node.entries = [])) := by
  obtain ⟨p, e, rfl, he⟩ := hplaced hroot
  have hstale : Stale packed (some p) idx node ↔ packed.max node.body ≠ e.1 := by
    constructor
    · rintro ⟨-, p', e', hp, he', hne⟩
      obtain rfl := Option.some.inj hp
      obtain rfl : e = e' := Option.some.inj (he.symm.trans he')
      exact hne.symm
    · intro hne
      exact ⟨hroot, p, e, rfl, he, hne.symm⟩
  have hkeys : p.keysAt idx = some e.1 := by rw [Node.keysAt, he, Option.map_some]
  rw [hstale]
  obtain ⟨id, isRoot, body⟩ := node
  cases body with
  | leaf data =>
      refine ⟨_, by simp [ctrCheckNonRoot, ctrCheckTypedNodeContent, hkeys]; rfl, ?_⟩
      simp [Node.isLeaf, or_comm]
  | branch entries =>
      refine ⟨_, by simp [ctrCheckNonRoot, ctrCheckTypedNodeContent, hkeys]; rfl, ?_⟩
      cases entries <;> simp [Node.isLeaf, Node.entries, or_comm]

/-- The part of a round before the children. -/
theorem ctrCheckNode_spec (hplaced : Placed parent idx node) (errors : Bool) :
    ∃ b, (if node.isRoot then some (ctrCheckContent packed node || errors)
        else ctrCheckNonRoot packed parent idx node (ctrCheckContent packed node || errors)) = some b
      ∧ (b = true ↔ errors = true ∨ Stale packed parent idx node ∨ NodeFault packed node) := by
  have hcontent : ctrCheckContent packed node = true ↔ packed.check node.body = false := by
    simp [ctrCheckContent]
  cases hroot : node.isRoot with
  | true =>
      refine ⟨_, rfl, ?_⟩
      simp [hcontent, Stale, NodeFault, hroot, or_comm]
  | false =>
      obtain ⟨b, hb, hiff⟩ := (@ctrCheckNonRoot_spec _ _ _ packed) hplaced hroot
        (ctrCheckContent packed node || errors)
      refine ⟨b, hb, ?_⟩
      rw [hiff, Bool.or_eq_true, hcontent, NodeFault]
      tauto

section Rounds

variable [DecidableEq I] {b errors : Bool}
  (hb : (if node.isRoot then some (ctrCheckContent packed node || errors)
      else ctrCheckNonRoot packed parent idx node (ctrCheckContent packed node || errors)) = some b)

include hb

theorem ctrCheckTreeStructure_of_nil (hnil : node.entries = []) :
    ctrCheckTreeStructure packed store (fuel + 1) parent idx node errors = some b := by
  obtain ⟨id, isRoot, body⟩ := node
  cases body with
  | leaf data => simp only [ctrCheckTreeStructure, hb, Option.bind_eq_bind, Option.bind_some]
  | branch entries =>
      obtain rfl : entries = [] := hnil
      simp only [ctrCheckTreeStructure, hb, Option.bind_eq_bind, Option.bind_some]

theorem ctrCheckTreeStructure_of_cons {e : E × I} {entries : List (E × I)} {child : Node I E L}
    (hentries : node.entries = e :: entries) (hget : store e.2 = some child) :
    ctrCheckTreeStructure packed store (fuel + 1) parent idx node errors
      = ctrCheckTreeStructure packed store fuel (some node) 0 child
          (decide (child.id ≠ e.2) || b) := by
  obtain ⟨id, isRoot, body⟩ := node
  cases body with
  | leaf data => cases hentries
  | branch entries' =>
      obtain rfl : entries' = e :: entries := hentries
      obtain ⟨keys, childId⟩ := e
      rw [ctrCheckTreeStructure]
      simp only [hb, Option.bind_eq_bind, Option.bind_some]
      rw [show store childId = some child from hget, Option.bind_some]

end Rounds

variable [DecidableEq I]

/-- On a tree the recursion comes back, and the flag is set just where it was set before, or the
entry of the node is out of date, or something is wrong on the way down through first children. -/
theorem ctrCheckTreeStructure_spec (hsub : Subtree store height node) (hfuel : height < fuel)
    (hplaced : Placed parent idx node) (errors : Bool) :
    ∃ b, ctrCheckTreeStructure packed store fuel parent idx node errors = some b
      ∧ (b = true ↔ errors = true ∨ Stale packed parent idx node
        ∨ SpineFaultFrom packed store node) := by
  induction height generalizing fuel parent idx node errors with
  | zero =>
      obtain ⟨fuel, rfl⟩ : ∃ k, fuel = k + 1 := ⟨fuel - 1, by omega⟩
      obtain ⟨b, hb, hiff⟩ := (@ctrCheckNode_spec _ _ _ packed) hplaced errors
      have hnil : node.entries = [] := hsub.entries_eq_nil
      refine ⟨b, ctrCheckTreeStructure_of_nil hb hnil, ?_⟩
      rw [hiff, spineFaultFrom_of_nil hnil]
  | succ height ih =>
      obtain ⟨fuel, rfl⟩ : ∃ k, fuel = k + 1 := ⟨fuel - 1, by omega⟩
      obtain ⟨b, hb, hiff⟩ := (@ctrCheckNode_spec _ _ _ packed) hplaced errors
      cases hentries : node.entries with
      | nil =>
          refine ⟨b, ctrCheckTreeStructure_of_nil hb hentries, ?_⟩
          rw [hiff, spineFaultFrom_of_nil hentries]
      | cons e entries =>
          have hfirst : node.entries[0]? = some e := by rw [hentries]; rfl
          have hmem : e ∈ node.entries := List.mem_of_getElem? hfirst
          obtain ⟨child, hget, hroot, hchild⟩ := hsub.2 e hmem
          have hplaced' : Placed (some node) 0 child := fun _ => ⟨node, e, rfl, hfirst⟩
          obtain ⟨b', hb', hiff'⟩ := ih hchild (by omega : height < fuel) hplaced'
            (decide (child.id ≠ e.2) || b)
          refine ⟨b', (ctrCheckTreeStructure_of_cons hb hentries hget).trans hb', ?_⟩
          rw [hiff', stale_child_iff hfirst hroot, Bool.or_eq_true, decide_eq_true_eq, hiff,
            spineFaultFrom_of_first hfirst hget]
          tauto

end Check

namespace Tree

variable (packed) (t : Tree I E L)

theorem spineFault_iff : t.SpineFault packed ↔ SpineFaultFrom packed t.store t.root := Iff.rfl

end Tree

/-- A way down that leaves the first children somewhere. -/
theorem onSpine_or_leaves {root node : Node I E L}
    (h : Relation.ReflTransGen (Child store) root node) :
    Relation.ReflTransGen (fun node child => ChildAt store node 0 child) root node
      ∨ ∃ fork idx child, Relation.ReflTransGen (Child store) root fork ∧ 0 < idx
        ∧ ChildAt store fork idx child ∧ Relation.ReflTransGen (Child store) child node := by
  induction h with
  | refl => exact Or.inl .refl
  | tail hreach hstep ih =>
      obtain ⟨idx, hchild⟩ := hstep
      obtain hspine | ⟨fork, i, child, hfork, hi, hleave, hdown⟩ := ih
      · obtain rfl | hpos := Nat.eq_zero_or_pos idx
        · exact Or.inl (hspine.tail hchild)
        · exact Or.inr ⟨_, idx, _, hreach, hpos, hchild, .refl⟩
      · exact Or.inr ⟨fork, i, child, hfork, hi, hleave, hdown.tail ⟨idx, hchild⟩⟩

/-- Damage is on the left edge or beside it. -/
theorem Tree.damaged_iff_spine_or_hidden (t : Tree I E L) :
    t.Damaged packed ↔ t.SpineFault packed ∨ t.HiddenFault packed := by
  constructor
  · rintro ⟨node, hreach, hfault⟩
    obtain hspine | ⟨fork, idx, child, hfork, hidx, hleave, hdown⟩ := onSpine_or_leaves hreach
    · obtain hnode | ⟨idx, hentry⟩ := hfault
      · exact Or.inl ⟨node, hspine, Or.inl hnode⟩
      · obtain rfl | hpos := Nat.eq_zero_or_pos idx
        · exact Or.inl ⟨node, hspine, Or.inr hentry⟩
        · exact Or.inr ⟨node, idx, hreach, hpos, Or.inl hentry⟩
    · exact Or.inr ⟨fork, idx, hfork, hidx, Or.inr ⟨child, node, hleave, hdown, hfault⟩⟩
  · rintro (⟨node, hspine, hfault⟩ | ⟨node, idx, hreach, -, hentry | hbelow⟩)
    · have hfirst : ∀ a b, ChildAt t.store a 0 b → Child t.store a b := fun a b h => ⟨0, h⟩
      have hreach : t.Has node := hspine.lift id hfirst
      exact ⟨node, hreach, hfault.imp_right fun h => ⟨0, h⟩⟩
    · exact ⟨node, hreach, Or.inr ⟨idx, hentry⟩⟩
    · obtain ⟨child, below, hchild, hdown, hfault⟩ := hbelow
      exact ⟨below, (hreach.tail ⟨idx, hchild⟩).trans hdown, hfault⟩

section Verdict

variable [DecidableEq I] [DecidableEq E]

/-- The check returns, and reports the faults on the left edge. -/
theorem ctrCheckTree_spec (packed : Packed I E L) (t : Tree I E L) {fuel : Nat}
    (hfuel : t.height < fuel) :
    ∃ b, ctrCheckTree packed t.store fuel (some t.rootId) = some b
      ∧ (b = true ↔ t.SpineFault packed) := by
  have hplaced : Placed none 0 t.root := by
    intro hroot
    rw [t.isRoot] at hroot
    cases hroot
  obtain ⟨b, hb, hiff⟩ := (@ctrCheckTreeStructure_spec _ _ _ packed) t.subtree hfuel hplaced false
  refine ⟨b, ?_, ?_⟩
  · simp only [ctrCheckTree, t.get_root, Option.bind_eq_bind, Option.bind_some, hb]
  · rw [hiff]
    simp [Stale, t.isRoot, Tree.spineFault_iff]

/-- The verdict is right just where a fault beside the left edge is not alone. -/
theorem ctrCheckTree_right_iff (packed : Packed I E L) (t : Tree I E L) {fuel : Nat}
    (hfuel : t.height < fuel) :
    (∃ b, ctrCheckTree packed t.store fuel (some t.rootId) = some b
      ∧ (b = true ↔ t.Damaged packed)) ↔ (t.HiddenFault packed → t.SpineFault packed) := by
  obtain ⟨b, hb, hspine⟩ := ctrCheckTree_spec packed t hfuel
  have hdamaged : t.Damaged packed ↔ _ := t.damaged_iff_spine_or_hidden
  constructor
  · rintro ⟨b', hb', hright⟩ hhidden
    obtain rfl : b = b' := Option.some.inj (hb.symm.trans hb')
    exact hspine.mp (hright.mpr (hdamaged.mpr (Or.inr hhidden)))
  · intro hhidden
    refine ⟨b, hb, ?_⟩
    rw [hspine, hdamaged]
    exact ⟨Or.inl, fun h => h.elim id hhidden⟩

end Verdict

namespace TwoLeaves

def nodeFns : Packed Nat Nat Nat where
  check
    | .leaf data => decide (data ≠ 0)
    | .branch _ => true
  max
    | .leaf data => data
    | .branch entries => (entries.map Prod.fst).sum

def root (left right : Nat) : Node Nat Nat Nat := ⟨0, true, .branch [(left, 1), (right, 2)]⟩

def blocks (left right : Nat) : Store Nat Nat Nat
  | 0 => some (root left right)
  | 1 => some ⟨1, false, .leaf left⟩
  | 2 => some ⟨2, false, .leaf right⟩
  | _ => none

def tree (left right : Nat) : Tree Nat Nat Nat where
  store := blocks left right
  rootId := 0
  root := root left right
  height := 1
  get_root := rfl
  isRoot := rfl
  subtree := by simp [Subtree, root, blocks, Node.isLeaf, Node.entries]

theorem spineFault_of_left (right : Nat) : (tree 0 right).SpineFault nodeFns :=
  ⟨⟨1, false, .leaf 0⟩, .single ⟨(0, 1), rfl, rfl⟩, Or.inl (Or.inl rfl)⟩

theorem damaged_of_right (left : Nat) : (tree left 0).Damaged nodeFns :=
  ⟨⟨2, false, .leaf 0⟩, .single ⟨1, (0, 2), rfl, rfl⟩, Or.inl (Or.inl rfl)⟩

end TwoLeaves

/-- Two bad leaves are found. -/
theorem ctrCheckTree_right_twoLeaves :
    ∃ b, ctrCheckTree TwoLeaves.nodeFns (TwoLeaves.tree 0 0).store 2 (some 0) = some b
      ∧ (b = true ↔ (TwoLeaves.tree 0 0).Damaged TwoLeaves.nodeFns) :=
  (ctrCheckTree_right_iff TwoLeaves.nodeFns (TwoLeaves.tree 0 0) (by decide)).mpr
    fun _ => TwoLeaves.spineFault_of_left 0

/-- A bad second leaf goes unseen. -/
theorem ctrCheckTree_misses_second_leaf :
    ¬ ∃ b, ctrCheckTree TwoLeaves.nodeFns (TwoLeaves.tree 1 0).store 2 (some 0) = some b
      ∧ (b = true ↔ (TwoLeaves.tree 1 0).Damaged TwoLeaves.nodeFns) := by
  rintro ⟨b, hb, hright⟩
  have hfalse : ctrCheckTree TwoLeaves.nodeFns (TwoLeaves.tree 1 0).store 2 (some 0)
      = some false := by decide
  obtain rfl : false = b := Option.some.inj (hfalse.symm.trans hb)
  exact absurd (hright.mpr (TwoLeaves.damaged_of_right 1)) (by decide)

end Memoria.BTree

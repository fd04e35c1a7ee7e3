import Memoria.Proof.TreeRuns

/-!
# Isolation of snapshots

Updates of the tree of one snapshot leave alone what the roots of other snapshots lead to. A node
that no other snapshot can reach is written to in place, whichever snapshot it was made in.
-/

namespace Memoria.PersistentTree

open Lib

variable {K B : Type} [LinearOrder K] [Inhabited K] {layout : NodeLayout} {key : K}
  {t t' : PersistentTree K B} {s s' : Session K B}

def Sees (t : PersistentTree K B) (root : Nat) (tree : Root K Value) : Prop :=
  tree.2.addr = root ∧ RepRoot t.bodyAt tree

/-- Every other snapshot sees the same nodes with the same keys, values and children, and finds the
same values. -/
def Session.Isolated (layout : NodeLayout) (s s' : Session K B) : Prop :=
  ∀ root tree, 0 < s.others (.node root) → Sees s.tree root tree →
    Sees s'.tree root tree ∧ ∀ key fuel,
      s'.tree.findValueIn layout key fuel root = s.tree.findValueIn layout key fuel root

theorem mem_of_findChild {l child : Nat}
    {es : List (K × Slot K Value (l + 1))}
    (h : findChild layout (pointers es) key = some child) : ∃ e ∈ es, e.2.addr = child := by
  obtain ⟨e, he, rfl⟩ := Option.map_eq_some_iff.mp h
  obtain ⟨e', he', rfl⟩ := List.mem_map.mp (List.mem_of_getElem? he)
  exact ⟨e', he', rfl⟩

/-- A search reads nothing but nodes of the tree. -/
theorem findValueIn_congr {l : Nat} {slot : Slot K Value (l + 1)} (h : Rep t.bodyAt (l + 1) slot)
    (h' : Rep t'.bodyAt (l + 1) slot) (fuel : Nat) :
    t'.findValueIn layout key fuel slot.addr = t.findValueIn layout key fuel slot.addr := by
  induction fuel generalizing l slot with
  | zero => rfl
  | succ fuel ih =>
      obtain ⟨n, hn, hbody⟩ := read_of_bodyAt h.1
      obtain ⟨n', hn', hbody'⟩ := read_of_bodyAt h'.1
      simp only [findValueIn, hn, hn', hbody, hbody', Option.bind_eq_bind, Option.bind_some]
      cases l with
      | zero => rfl
      | succ l =>
          simp only [content_succ]
          cases hchild : findChild layout (pointers slot.entries) key with
          | none => rfl
          | some child =>
              obtain ⟨e, he, rfl⟩ := mem_of_findChild hchild
              exact ih (h.2 e he) (h'.2 e he)

def Session.CallApart (layout : NodeLayout) (s : Session K B) : Update K → Prop
  | .assign key value => s.CallOk layout (.assign key value)
  | .remove key => ∀ iter, s.tree.locate layout key = some iter → MergesApart layout s.tree iter

instance (layout : NodeLayout) (s : Session K B) : ∀ op, Decidable (s.CallApart layout op)
  | .assign key value => inferInstanceAs (Decidable (s.CallOk layout (.assign key value)))
  | .remove key => inferInstanceAs
      (Decidable (∀ iter ∈ s.tree.locate layout key, MergesApart layout s.tree iter))

def Session.InShape (layout : NodeLayout) (s : Session K B) : Prop :=
  ∃ tree, Shaped layout s.tree s.others tree

/-- A call is defined and leaves alone what others see, whether or not the tree is in order. -/
theorem Session.InShape.step (h : s.InShape layout) {op : Update K} (hok : s.CallApart layout op) :
    ∃ s', s.step layout op = some s' ∧ s'.InShape layout ∧ s.Leaves s' := by
  obtain ⟨tree, h⟩ := h
  cases op with
  | assign key value =>
      obtain ⟨hheld, hroom⟩ := hok
      rw [← plus_minus hheld] at h
      obtain ⟨t', old, tree', hrun, h', hkeeps⟩ := h.assign hroom
      have hnodes : ∀ p, minus s.others (.block value.blockPtr) (.node p) = s.others (.node p) :=
        fun p => rfl
      refine ⟨⟨t', plusOld (minus s.others (.block value.blockPtr)) old,
        Function.update s.map key (some value)⟩, ?_, ⟨tree', h'⟩, hkeeps.congr hnodes,
        fun p => plusOld_node _ old p⟩
      simp only [Session.step, hrun, Option.bind_eq_bind, Option.bind_some]
  | remove key =>
      obtain ⟨t', found, tree', hrun, h', hkeeps⟩ := h.remove hok
      refine ⟨⟨t', s.others, Function.update s.map key none⟩, ?_, ⟨tree', h'⟩, hkeeps,
        fun _ => rfl⟩
      simp only [Session.step, hrun, Option.bind_eq_bind, Option.bind_some]

omit [LinearOrder K] [Inhabited K] in
theorem Session.Leaves.refl (s : Session K B) : s.Leaves s := ⟨.refl _ _, fun _ => rfl⟩

omit [LinearOrder K] [Inhabited K] in
theorem Session.Leaves.trans {s₁ s₂ s₃ : Session K B} (h : s₁.Leaves s₂) (h' : s₂.Leaves s₃) :
    s₁.Leaves s₃ := by
  refine ⟨h.keeps.trans (h'.keeps.congr h.roots), fun p => ?_⟩
  rw [h'.roots, h.roots]

theorem Session.Leaves.isolated (h : s.Leaves s') : s.Isolated layout s' := by
  rintro root tree hroot ⟨rfl, hrep⟩
  have hrep' := h.keeps.rep tree.1 tree.2 hroot hrep
  exact ⟨⟨rfl, hrep'⟩, fun key fuel => findValueIn_congr hrep hrep' fuel⟩

/-- In a run that stays clear of the merges that go wrong, every call is defined and every other
snapshot sees the same nodes all the time. -/
theorem isolated_run (h : s.InShape layout) {ops : List (Update K)}
    (hrun : EveryStep (Session.step layout) (Session.CallApart layout) s ops) :
    EveryState (Session.step layout) (fun s' => s.Isolated layout s') s ops
      ∧ EveryStep (Session.step layout) (fun s op => (s.step layout op).isSome = true) s ops := by
  have hstep : ∀ (s₁ : Session K B) op s₂, s₁.InShape layout ∧ s.Leaves s₁ →
      s₁.CallApart layout op → s₁.step layout op = some s₂ → s₂.InShape layout ∧ s.Leaves s₂ := by
    rintro s₁ op s₂ ⟨hs₁, hleaves⟩ hok hstep
    obtain ⟨s₃, hstep', hs₃, hkeeps⟩ := hs₁.step hok
    obtain rfl := Option.some.inj (hstep'.symm.trans hstep)
    exact ⟨hs₃, hleaves.trans hkeeps⟩
  have hinit : s.InShape layout ∧ s.Leaves s := ⟨h, .refl s⟩
  refine ⟨EveryState.of_invariant hstep ?_ hinit hrun, EveryStep.of_invariant hstep ?_ hinit hrun⟩
  · rintro s₁ ⟨-, hleaves⟩
    exact hleaves.isolated
  · rintro s₁ op ⟨hs₁, -⟩ hok
    obtain ⟨s₂, hstep, -⟩ := hs₁.step hok
    rw [hstep]
    rfl

/-- The run of `updates`, while the other root of `TwoSnapshots` leads to the same nodes. -/
theorem isolated_updates :
    EveryState (Session.step TwoSnapshots.small)
        (fun s' => TwoSnapshots.session.Isolated TwoSnapshots.small s') TwoSnapshots.session
        TwoSnapshots.updates
      ∧ EveryStep (Session.step TwoSnapshots.small)
        (fun s op => (s.step TwoSnapshots.small op).isSome = true) TwoSnapshots.session
        TwoSnapshots.updates := by
  obtain ⟨tree, h⟩ := (TwoSnapshots.agrees TwoSnapshots.small).sound
  exact isolated_run ⟨tree, h.toShaped⟩ (by decide +kernel)

def Session.Untouched (s s' : Session K B) : Prop :=
  ∀ p n, s.tree.nodes.read p = some n → n.snapshotId ≠ s.tree.snapshotId →
    s'.tree.bodyAt p = some n.body

namespace Inherited

def cells : List (Node Nat) :=
  [⟨0, 1, 1, 2, .branch [(5, 1), (9, 2)]⟩, ⟨1, 0, 1, 0, .leaf [(5, ⟨0, 0⟩)]⟩,
    ⟨2, 0, 1, 0, .leaf [(9, ⟨1, 0⟩)]⟩]

def active : PersistentTree Nat Unit where
  nodes := cells.foldl Heap.alloc Heap.empty
  blocks := (List.replicate 3 ⟨1, ()⟩).foldl Heap.alloc Heap.empty
  nextNodeId := 3
  root := 0
  snapshotId := 1

def newBlock : Ptr → Nat := fun x => if x = .block 2 then 1 else 0

def left : Slot Nat Value 1 := .leaf 1 [(5, ⟨0, 0⟩)]

def right : Slot Nat Value 1 := .leaf 2 [(9, ⟨1, 0⟩)]

def levels : Root Nat Value := ⟨1, .node 0 [(5, left), (9, right)]⟩

def session : Session Nat Unit := ⟨active, newBlock, toMap (flatRoot levels)⟩

theorem balanced : Balanced active (withRoot newBlock active.root) := by
  refine balanced_of_inBounds (n := 3) (m := 3) (by decide) (by decide) ?_ ?_ (by decide) (by decide)
  · intro p hp b hb
    change p < 3 at hp
    interval_cases p <;> obtain rfl := Option.some.inj hb <;> simp [ptrs, InBounds]
  · intro x hx
    cases x with
    | node p =>
        have hp : ¬ p < 3 := hx
        simp [withRoot, newBlock, active, show p ≠ 0 by omega]
    | block b =>
        have hb : ¬ b < 3 := hx
        simp [withRoot, newBlock, show b ≠ 2 by omega]

theorem represented : RepRoot active.bodyAt levels := by
  have hleft : Rep active.bodyAt 1 left := ⟨rfl, fun _ _ => trivial⟩
  have hright : Rep active.bodyAt 1 right := ⟨rfl, fun _ _ => trivial⟩
  exact ⟨rfl, repOf_cons.mpr ⟨hleft, repOf_cons.mpr ⟨hright, nofun⟩⟩⟩

theorem valid : Valid levels := by
  have hlt : (5 : WithBot Nat) < (9 : WithBot Nat) :=
    WithBot.coe_lt_coe.mpr (by decide : (5 : Nat) < 9)
  refine ⟨Or.inr nofun, ?_, ?_, trivial⟩
  · exact ⟨WithBot.bot_lt_coe 5, nofun, ⟨WithBot.bot_lt_coe 5, trivial⟩, fun _ => rfl⟩
  · exact ⟨hlt, nofun, ⟨hlt, trivial⟩, nofun⟩

theorem sized : Sized NodeLayout.store.nodeSize levels := by
  have hleft : SizedSlot 1024 1 left := ⟨by decide, fun _ _ => trivial⟩
  have hright : SizedSlot 1024 1 right := ⟨by decide, fun _ _ => trivial⟩
  exact ⟨by decide, sizedOf_cons.mpr ⟨hleft, sizedOf_cons.mpr ⟨hright, nofun⟩⟩⟩

theorem sound : session.Sound NodeLayout.store :=
  ⟨levels, ⟨⟨represented, by decide, rfl, balanced, by decide⟩, sized, valid.filled, by decide⟩,
    valid⟩

theorem callOk : session.CallOk NodeLayout.store (.assign 5 ⟨2, 1⟩) := by
  refine ⟨by decide, fun hnone => ?_⟩
  have hfind : session.tree.find NodeLayout.store 5 = some (some ⟨0, 0⟩) := by decide
  rw [hfind] at hnone
  cases hnone

end Inherited

/-- A leaf that snapshot 0 has left behind is written to by snapshot 1. -/
theorem assign_touches_old_leaf :
    Inherited.session.Sound NodeLayout.store
      ∧ Inherited.session.CallOk NodeLayout.store (.assign 5 ⟨2, 1⟩)
      ∧ ¬ ∀ s', Inherited.session.step NodeLayout.store (.assign 5 ⟨2, 1⟩) = some s' →
        Inherited.session.Untouched s' := by
  refine ⟨Inherited.sound, Inherited.callOk, fun hclaim => ?_⟩
  obtain ⟨s', hs'⟩ : ∃ s', Inherited.session.step NodeLayout.store (.assign 5 ⟨2, 1⟩) = some s' :=
    Option.isSome_iff_exists.mp (by decide)
  have hkept := hclaim s' hs' 1 _ rfl (by decide)
  have hnew : (Inherited.session.step NodeLayout.store (.assign 5 ⟨2, 1⟩)).bind
      (fun s' => s'.tree.bodyAt 1) = some (.leaf [(5, ⟨2, 1⟩)]) := by decide
  rw [hs', Option.bind_some, hkept] at hnew
  cases hnew

end Memoria.PersistentTree

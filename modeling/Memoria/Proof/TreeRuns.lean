import Mathlib.Tactic.IntervalCases
import Memoria.Lib.Run
import Memoria.Proof.TreeShape

/-!
# Runs of updates

The tree of an active snapshot under `assign` and `remove`. A removal is in order as long as the
leaf it leaves without entries is merged away, and as long as the path of the neighbour that a leaf
is merged with does not have to be cloned below a node that both paths share. A key that is not in
the tree is taken for the next greater one.
-/

namespace Memoria.PersistentTree

open Lib

variable {K B : Type} [LinearOrder K] [Inhabited K] {layout : NodeLayout} {key : K}
  {t t' : PersistentTree K B} {others : Ptr → Nat} {tree : Root K Value}

omit [Inhabited K] in
/-- A key can only stand where it would be inserted. -/
theorem mem_iff_head {left right : List (K × Value)} {value : Value}
    (hsorted : Sorted (left ++ right)) (hleft : ∀ b ∈ left, b.1 < key)
    (hright : ∀ b ∈ right, key ≤ b.1) :
    (key, value) ∈ left ++ right ↔ right.head? = some (key, value) := by
  rw [List.mem_append, or_iff_right fun hmem => lt_irrefl _ (hleft _ hmem)]
  cases right with
  | nil => simp
  | cons e rest =>
      obtain ⟨hless, -⟩ := List.pairwise_cons.mp (sorted_append.mp hsorted).2.1
      have hrest : (key, value) ∉ rest := fun hmem =>
        absurd (hless _ hmem) (not_lt.mpr (hright e List.mem_cons_self))
      rw [List.mem_cons, or_iff_left hrest, List.head?_cons, Option.some.injEq, eq_comm]

/-- A leaf that is not the last one has a key from the one that belongs to it on. -/
theorem Located.exists_le {c : Ctx K Value 0} {s : Slot K Value 1} (h : Located tree key c s)
    (hvalid : Valid tree) (htrail : c.trailOf = false) : ∃ e ∈ s.bindings, key ≤ e.1 := by
  obtain ⟨rfl, -, hhi⟩ := h
  obtain ⟨hx, -⟩ := (valid_plug_iff c s).mp hvalid
  have hpath : c.path ≠ [] := by
    intro hpath
    rw [Ctx.eq_top_of_path hpath] at htrail
    cases htrail
  have hne : s.bindings ≠ [] := hx.entries_ne_nil (Or.inl hpath)
  obtain ⟨es, e, hes⟩ := (List.eq_nil_or_concat' s.bindings).resolve_left hne
  have hlast : lastKey s.entries = e.1 := by
    change lastKey s.bindings = e.1
    rw [hes, lastKey_concat]
  refine ⟨e, by rw [hes]; simp, ?_⟩
  rw [← hlast]
  exact hhi htrail

/-- A removal does nothing just where the tree has no key from this one on. -/
theorem remove_eq_self_iff (h : WellFormed layout t others tree) :
    t.remove layout key = some (t, false) ↔ ∀ b ∈ flatRoot tree, b.1 < key := by
  obtain ⟨c, s, left, right, hrun, hloc, hbindings, hleft, hright⟩ := h.locate key
  obtain ⟨hbefore, -⟩ := hloc.sep h.valid
  have hvalid := h.valid
  have hplug := hloc.plug
  subst hplug
  rw [flatRoot_plug, flatOf_leaf, hbindings]
  constructor
  · intro hremove b hb
    have hnil : right = [] := by
      by_contra hne
      have hlt : left.length < s.bindings.length := by
        rw [hbindings, List.length_append]
        have := List.length_pos_iff.mpr hne
        omega
      rw [remove_inside h.holds hrun hlt] at hremove
      obtain ⟨t', -, heq⟩ := Option.map_eq_some_iff.mp hremove
      cases heq
    have htrail : c.trailOf = true := by
      by_contra hfalse
      obtain ⟨e, he, hle⟩ := hloc.exists_le hvalid (Bool.eq_false_iff.mpr hfalse)
      rw [hbindings, hnil, List.append_nil] at he
      exact absurd (hleft e he) (not_lt.mpr hle)
    rw [hnil, List.append_nil, Ctx.after_of_trailOf htrail, List.append_nil] at hb
    rcases List.mem_append.mp hb with hb | hb
    · exact hbefore b hb
    · exact hleft b hb
  · intro hless
    have hnil : right = [] := by
      by_contra hne
      obtain ⟨e, rest, rfl⟩ := List.exists_cons_of_ne_nil hne
      have hlt := hless e (by simp)
      exact absurd hlt (not_lt.mpr (hright e List.mem_cons_self))
    rw [hnil, List.append_nil] at hbindings
    rw [← hbindings] at hrun
    exact remove_at_end h.holds hrun

/-- What a removal leaves, whichever key it takes. -/
theorem remove_spec (h : WellFormed layout t others tree)
    (hok : ∀ iter, t.locate layout key = some iter → RemoveOk layout t iter) :
    t.remove layout key = some (t, false) ∨
      ∃ t' tree' found, t.remove layout key = some (t', true) ∧ WellFormed layout t' others tree' ∧
        toMap (flatRoot tree') = Function.update (toMap (flatRoot tree)) found none ∧
        (∀ v, toMap (flatRoot tree) key = some v → found = key) ∧ Keeps others t t' := by
  obtain ⟨c, s, left, right, hrun, hloc, hbindings, hleft, hright⟩ := h.locate key
  have hsorted := h.valid.sorted
  have hleaf : Sorted s.bindings := hloc.sorted h.valid
  have hplug := hloc.plug
  subst hplug
  cases right with
  | nil =>
      rw [List.append_nil] at hbindings
      rw [← hbindings] at hrun
      exact Or.inl (remove_at_end h.holds hrun)
  | cons e rest =>
      obtain ⟨found, old⟩ := e
      have hlt : left.length < s.bindings.length := by simp [hbindings]
      obtain ⟨hapart, hempty⟩ := hok _ hrun
      obtain ⟨t', tree', hrun', h', hflat, hkeeps, hvalid⟩ :=
        removeFrom_spec h.toShaped hbindings hapart
      have hvalid' := hvalid h.valid hempty
      have hsorted' := hvalid'.sorted
      rw [hflat] at hsorted'
      rw [flatRoot_plug, flatOf_leaf, hbindings] at hsorted
      refine Or.inr ⟨t', tree', found, ?_, ⟨h', hvalid'⟩, ?_, ?_, hkeeps⟩
      · rw [remove_inside h.holds hrun hlt, hrun', Option.map_some]
      · rw [hflat, flatRoot_plug, flatOf_leaf, hbindings]
        exact toMap_erase hsorted hsorted'
      · intro v hv
        rw [hloc.toMap_eq h.valid, hleaf.toMap_eq_some_iff, hbindings,
          mem_iff_head (hbindings ▸ hleaf) hleft hright] at hv
        exact (Prod.mk.inj (Option.some.inj hv)).1

inductive SharedState where
  | read
  | update
  | delete
deriving DecidableEq, Repr

abbrev Pool (K : Type) : Type := K → Option SharedState

def removeBlock (layout : NodeLayout) (t : PersistentTree K B) (pool : Pool K) (id : K) :
    Option (PersistentTree K B × Pool K) := do
  let iter ← t.locate layout id
  if ← t.isEnd iter then
    some (t, pool)
  else
    match pool id with
    | none => do
        let t ← t.removeFrom layout iter
        some (t, pool)
    | some _ => some (t, Function.update pool id (some .delete))

def releaseBlock (layout : NodeLayout) (t : PersistentTree K B) (pool : Pool K) (id : K) :
    Option (PersistentTree K B × Pool K) :=
  match pool id with
  | some .delete => do
      let (t, _) ← t.remove layout id
      some (t, Function.update pool id none)
  | _ => some (t, Function.update pool id none)

structure Harmless (layout : NodeLayout) (t : PersistentTree K B) (id : K) : Prop where
  remove : t.remove layout id = some (t, false)
  removeBlock : ∀ pool : Pool K, ∃ pool', t.removeBlock layout pool id = some (t, pool')
  releaseBlock : ∀ pool : Pool K, ∃ pool', t.releaseBlock layout pool id = some (t, pool')

theorem removeBlock_of_remove {pool : Pool K} (h : t.remove layout key = some (t, false)) :
    t.removeBlock layout pool key = some (t, pool) := by
  simp only [PersistentTree.remove, Option.bind_eq_bind, Option.bind_eq_some_iff] at h
  obtain ⟨iter, hiter, hrest⟩ := h
  obtain ⟨atEnd, hend, hbranch⟩ := hrest
  cases atEnd with
  | true => simp only [PersistentTree.removeBlock, hiter, hend, Option.bind_eq_bind,
      Option.bind_some, if_true]
  | false =>
      simp only [Bool.false_eq_true, if_false] at hbranch
      obtain ⟨t', -, heq⟩ := Option.bind_eq_some_iff.mp hbranch
      cases heq

theorem releaseBlock_of_remove {pool : Pool K} (h : t.remove layout key = some (t, false)) :
    t.releaseBlock layout pool key = some (t, Function.update pool key none) := by
  unfold PersistentTree.releaseBlock
  split
  · rw [h]
    rfl
  · rfl

theorem harmless_iff (h : WellFormed layout t others tree) :
    Harmless layout t key ↔ ∀ b ∈ flatRoot tree, b.1 < key := by
  rw [← remove_eq_self_iff h]
  constructor
  · exact fun hharmless => hharmless.remove
  · intro hremove
    exact ⟨hremove, fun pool => ⟨_, removeBlock_of_remove hremove⟩,
      fun pool => ⟨_, releaseBlock_of_remove hremove⟩⟩

variable (K B) in
structure Session where
  tree : PersistentTree K B
  others : Ptr → Nat
  map : K → Option Value

inductive Update (K : Type) where
  | assign (key : K) (value : Value)
  | remove (key : K)

def minus (others : Ptr → Nat) (x : Ptr) : Ptr → Nat := fun y => others y - if y = x then 1 else 0

def Session.step (layout : NodeLayout) (s : Session K B) : Update K → Option (Session K B)
  | .assign key value => do
      let (tree, old) ← s.tree.assign layout key value
      some ⟨tree, plusOld (minus s.others (.block value.blockPtr)) old,
        Function.update s.map key (some value)⟩
  | .remove key => do
      let (tree, _) ← s.tree.remove layout key
      some ⟨tree, s.others, Function.update s.map key none⟩

/-- The caller has the reference that it hands in, the tree does not outgrow a path, and a removal
stays clear of the merges that go wrong. -/
def Session.CallOk (layout : NodeLayout) (s : Session K B) : Update K → Prop
  | .assign key value => 0 < s.others (.block value.blockPtr) ∧
      (s.tree.find layout key = some none →
        ∀ iter, s.tree.locate layout key = some iter → HasRoom layout s.tree iter.path)
  | .remove key => ∀ iter, s.tree.locate layout key = some iter → RemoveOk layout s.tree iter

instance (layout : NodeLayout) (s : Session K B) : ∀ op, Decidable (s.CallOk layout op)
  | .assign key value => inferInstanceAs (Decidable (0 < s.others (.block value.blockPtr) ∧
      (s.tree.find layout key = some none →
        ∀ iter ∈ s.tree.locate layout key, HasRoom layout s.tree iter.path)))
  | .remove key => inferInstanceAs
      (Decidable (∀ iter ∈ s.tree.locate layout key, RemoveOk layout s.tree iter))

def Session.Present (s : Session K B) : Update K → Prop
  | .assign _ _ => True
  | .remove key => ∃ value, s.map key = some value

instance (s : Session K B) : ∀ op, Decidable (s.Present op)
  | .assign _ _ => inferInstanceAs (Decidable True)
  | .remove _ => decidable_of_iff _ Option.isSome_iff_exists

def Session.Sound (layout : NodeLayout) (s : Session K B) : Prop :=
  ∃ tree, WellFormed layout s.tree s.others tree

def Session.Agrees (layout : NodeLayout) (s : Session K B) : Prop :=
  ∃ tree, WellFormed layout s.tree s.others tree ∧ toMap (flatRoot tree) = s.map

theorem Session.Agrees.sound {s : Session K B} (h : s.Agrees layout) : s.Sound layout := by
  obtain ⟨tree, h, -⟩ := h
  exact ⟨tree, h⟩

structure Session.Leaves (s s' : Session K B) : Prop where
  keeps : Keeps s.others s.tree s'.tree
  roots : ∀ p, s'.others (.node p) = s.others (.node p)

variable {s s' : Session K B}

omit [LinearOrder K] [Inhabited K] in
theorem Keeps.congr {others' : Ptr → Nat} (h : Keeps others t t')
    (hnodes : ∀ p, others (.node p) = others' (.node p)) : Keeps others' t t' :=
  ⟨fun l s hext => h.rep l s (by rw [hnodes]; exact hext),
    fun p hext => h.refs p (by rw [hnodes]; exact hext)⟩

theorem plusOld_node (others : Ptr → Nat) (old : Option Value) (p : Nat) :
    plusOld others old (.node p) = others (.node p) := by
  cases old <;> rfl

omit [LinearOrder K] [Inhabited K] in
theorem plus_minus {x : Ptr} (h : 0 < others x) : plus (minus others x) x = others := by
  funext y
  by_cases heq : y = x
  · subst heq
    simp only [plus, minus, if_true]
    omega
  · simp [plus, minus, heq]

theorem find_eq_toMap (h : WellFormed layout t others tree) :
    t.find layout key = some (toMap (flatRoot tree) key) :=
  find_spec h.holds h.valid key

theorem Session.step_assign (h : WellFormed layout s.tree s.others tree) {value : Value}
    (hok : s.CallOk layout (.assign key value)) :
    ∃ s' tree', s.step layout (.assign key value) = some s'
      ∧ WellFormed layout s'.tree s'.others tree'
      ∧ toMap (flatRoot tree') = Function.update (toMap (flatRoot tree)) key (some value)
      ∧ s'.map = Function.update s.map key (some value) ∧ s.Leaves s' := by
  obtain ⟨hheld, hroom⟩ := hok
  have h' : WellFormed layout s.tree
      (plus (minus s.others (.block value.blockPtr)) (.block value.blockPtr)) tree := by
    rw [plus_minus hheld]
    exact h
  obtain ⟨t', tree', hrun, hwf, hmap, hkeeps⟩ := assign_spec h' fun hnone =>
    hroom (by rw [find_eq_toMap h, hnone])
  have hnodes : ∀ p, minus s.others (.block value.blockPtr) (.node p) = s.others (.node p) :=
    fun p => rfl
  refine ⟨⟨t', plusOld (minus s.others (.block value.blockPtr)) (toMap (flatRoot tree) key),
    Function.update s.map key (some value)⟩, tree', ?_, hwf, hmap, rfl,
    hkeeps.congr hnodes, ?_⟩
  · simp only [Session.step, hrun, Option.bind_eq_bind, Option.bind_some]
  · intro p
    exact plusOld_node _ _ p

theorem Session.step_remove (h : WellFormed layout s.tree s.others tree)
    (hok : s.CallOk layout (.remove key)) :
    ∃ s' tree', s.step layout (.remove key) = some s' ∧ WellFormed layout s'.tree s'.others tree'
      ∧ (∀ v, toMap (flatRoot tree) key = some v →
        toMap (flatRoot tree') = Function.update (toMap (flatRoot tree)) key none)
      ∧ s'.map = Function.update s.map key none ∧ s.Leaves s' := by
  obtain hsame | ⟨t', tree', found, hrun, hwf, hmap, hfound, hkeeps⟩ := remove_spec h hok
  · refine ⟨⟨s.tree, s.others, Function.update s.map key none⟩, tree, ?_, h, ?_, rfl,
      .refl _ _, fun _ => rfl⟩
    · simp only [Session.step, hsame, Option.bind_eq_bind, Option.bind_some]
    · intro v hv
      have hless := (remove_eq_self_iff h).mp hsame
      have hmem := h.valid.sorted.toMap_eq_some_iff.mp hv
      exact absurd (hless _ hmem) (lt_irrefl _)
  · refine ⟨⟨t', s.others, Function.update s.map key none⟩, tree', ?_, hwf, ?_, rfl,
      hkeeps, fun _ => rfl⟩
    · simp only [Session.step, hrun, Option.bind_eq_bind, Option.bind_some]
    · intro v hv
      rw [hmap, hfound v hv]

/-- A call that is in order succeeds and leaves the tree in order. -/
theorem Session.Sound.step (h : s.Sound layout) {op : Update K} (hok : s.CallOk layout op) :
    ∃ s', s.step layout op = some s' ∧ s'.Sound layout ∧ s.Leaves s' := by
  obtain ⟨tree, h⟩ := h
  cases op with
  | assign key value =>
      obtain ⟨s', tree', hrun, h', -, -, hleaves⟩ := Session.step_assign h hok
      exact ⟨s', hrun, ⟨tree', h'⟩, hleaves⟩
  | remove key =>
      obtain ⟨s', tree', hrun, h', -, -, hleaves⟩ := Session.step_remove h hok
      exact ⟨s', hrun, ⟨tree', h'⟩, hleaves⟩

/-- A call in order is defined, and the tree has the entries of the map afterwards. -/
theorem Session.Agrees.step (h : s.Agrees layout) {op : Update K} (hok : s.CallOk layout op)
    (hpresent : s.Present op) : ∃ s', s.step layout op = some s' ∧ s'.Agrees layout := by
  obtain ⟨tree, h, hmap⟩ := h
  cases op with
  | assign key value =>
      obtain ⟨s', tree', hrun, h', hmap', hghost, -⟩ := Session.step_assign h hok
      exact ⟨s', hrun, tree', h', by rw [hmap', hghost, hmap]⟩
  | remove key =>
      obtain ⟨value, hvalue⟩ := hpresent
      obtain ⟨s', tree', hrun, h', hmap', hghost, -⟩ := Session.step_remove h hok
      exact ⟨s', hrun, tree', h', by rw [hmap' value (by rw [hmap, hvalue]), hghost, hmap]⟩

def InBounds (n m : Nat) : Ptr → Prop
  | .node p => p < n
  | .block b => b < m

omit [LinearOrder K] [Inhabited K] in
/-- Beyond the addresses that have been handed out there is nothing to count. -/
theorem balanced_of_inBounds {ext : Ptr → Nat} {n m : Nat} (hnodes : t.nodes.next ≤ n)
    (hblocks : t.blocks.next ≤ m)
    (hptrs : ∀ p < t.nodes.next, ∀ b, t.bodyAt p = some b → ∀ x ∈ ptrs b, InBounds n m x)
    (hext : ∀ x, ¬ InBounds n m x → ext x = 0)
    (hnode : ∀ p < n, t.refsOf (.node p) = t.slots (.node p) + ext (.node p))
    (hblock : ∀ b < m, t.refsOf (.block b) = t.slots (.block b) + ext (.block b)) :
    Balanced t ext := by
  intro x
  by_cases hx : InBounds n m x
  · cases x with
    | node p => exact hnode p hx
    | block b => exact hblock b hx
  · have hslots : t.slots x = 0 := by
      unfold slots Heap.sum
      refine Finset.sum_eq_zero fun p hp => ?_
      cases hread : t.nodes.read p with
      | none => rfl
      | some node =>
          have hbody : t.bodyAt p = some node.body := by rw [bodyAt, hread, Option.map_some]
          refine List.count_eq_zero_of_not_mem fun hmem => hx ?_
          exact hptrs p (Finset.mem_range.mp hp) _ hbody x hmem
    have hrefs : t.refsOf x = 0 := by
      cases x with
      | node p =>
          have hnone : t.nodes.read p = none := t.nodes.fresh p (hnodes.trans (not_lt.mp hx))
          rw [refsOf, hnone, Option.elim_none]
      | block b =>
          have hnone : t.blocks.read b = none := t.blocks.fresh b (hblocks.trans (not_lt.mp hx))
          rw [refsOf, hnone, Option.elim_none]
    rw [hrefs, hslots, hext x hx]
    rfl

namespace OneLeaf

def five : PersistentTree Nat Unit where
  nodes := Heap.empty.alloc ⟨0, 0, 1, 1, .leaf [(5, ⟨0, 0⟩)]⟩
  blocks := Heap.empty.alloc ⟨1, ()⟩
  nextNodeId := 1
  root := 0
  snapshotId := 0

def leaf : Root Nat Value := ⟨0, .leaf 0 [(5, ⟨0, 0⟩)]⟩

def session : Session Nat Unit := ⟨five, fun _ => 0, toMap (flatRoot leaf)⟩

theorem balanced : Balanced five (withRoot (fun _ => 0) five.root) := by
  refine balanced_of_inBounds (n := 1) (m := 1) (by decide) (by decide) ?_ ?_ (by decide) (by decide)
  · intro p hp b hb
    obtain rfl : p = 0 := Nat.lt_one_iff.mp hp
    obtain rfl : Content.leaf [(5, ⟨0, 0⟩)] = b := Option.some.inj hb
    simp [ptrs, InBounds]
  · intro x hx
    cases x with
    | node p =>
        have hne : p ≠ 0 := by
          rintro rfl
          exact hx Nat.zero_lt_one
        simp [withRoot, five, hne]
    | block b => rfl

theorem wellFormed : WellFormed NodeLayout.store five (fun _ => 0) leaf := by
  refine ⟨⟨⟨?_, by decide, rfl, balanced, by decide⟩, ?_, ?_, by decide⟩, ?_⟩
  · exact ⟨rfl, fun _ _ => trivial⟩
  · exact ⟨by decide, fun _ _ => trivial⟩
  · exact filledSlot_leaf leaf.2
  · exact ⟨Or.inl rfl, WithBot.bot_lt_coe 5, trivial⟩

end OneLeaf

namespace TwoSnapshots

def cells : List (Node Nat) :=
  [⟨0, 1, 1, 4, .branch [(3, 1), (5, 2)]⟩, ⟨1, 0, 2, 0, .branch [(2, 3), (3, 4)]⟩,
    ⟨2, 0, 2, 0, .branch [(5, 5)]⟩, ⟨3, 0, 1, 0, .leaf [(1, ⟨0, 0⟩), (2, ⟨1, 0⟩)]⟩,
    ⟨4, 0, 1, 0, .leaf [(3, ⟨2, 0⟩)]⟩, ⟨5, 0, 1, 0, .leaf [(5, ⟨3, 0⟩)]⟩,
    ⟨6, 0, 1, 4, .branch [(3, 1), (5, 2)]⟩]

def active : PersistentTree Nat Unit where
  nodes := cells.foldl Heap.alloc Heap.empty
  blocks := (List.replicate 7 ⟨1, ()⟩).foldl Heap.alloc Heap.empty
  nextNodeId := 7
  root := 0
  snapshotId := 1

def held : Ptr → Nat := fun x =>
  if x = .node 6 ∨ x = .block 4 ∨ x = .block 5 ∨ x = .block 6 then 1 else 0

def leaf (p : Nat) (bs : List (Nat × Value)) : Slot Nat Value 1 := .leaf p bs

def left : Slot Nat Value 2 :=
  .node 1 [(2, leaf 3 [(1, ⟨0, 0⟩), (2, ⟨1, 0⟩)]), (3, leaf 4 [(3, ⟨2, 0⟩)])]

def right : Slot Nat Value 2 := .node 2 [(5, leaf 5 [(5, ⟨3, 0⟩)])]

def levels : Root Nat Value := ⟨2, .node 0 [(3, left), (5, right)]⟩

def session : Session Nat Unit := ⟨active, held, toMap (flatRoot levels)⟩

theorem balanced : Balanced active (withRoot held active.root) := by
  refine balanced_of_inBounds (n := 7) (m := 7) (by decide) (by decide) ?_ ?_ (by decide) (by decide)
  · intro p hp b hb
    change p < 7 at hp
    interval_cases p <;> obtain rfl := Option.some.inj hb <;> simp [ptrs, InBounds]
  · intro x hx
    cases x with
    | node p =>
        have hp : ¬ p < 7 := hx
        simp [withRoot, held, active, show p ≠ 6 by omega, show p ≠ 0 by omega]
    | block b =>
        have hb : ¬ b < 7 := hx
        simp [withRoot, held, show b ≠ 4 by omega, show b ≠ 5 by omega, show b ≠ 6 by omega]

theorem represented : RepRoot active.bodyAt levels := by
  have hleaf : ∀ p bs, active.bodyAt p = some (.leaf bs) → Rep active.bodyAt 1 (leaf p bs) :=
    fun p bs h => ⟨h, fun _ _ => trivial⟩
  have hleft : Rep active.bodyAt 2 left := by
    refine ⟨rfl, repOf_cons.mpr ⟨hleaf 3 _ rfl, repOf_cons.mpr ⟨hleaf 4 _ rfl, nofun⟩⟩⟩
  have hright : Rep active.bodyAt 2 right := ⟨rfl, repOf_cons.mpr ⟨hleaf 5 _ rfl, nofun⟩⟩
  exact ⟨rfl, repOf_cons.mpr ⟨hleft, repOf_cons.mpr ⟨hright, nofun⟩⟩⟩

theorem valid : Valid levels := by
  have hlt : ∀ m n : Nat, m < n → (m : WithBot Nat) < (n : WithBot Nat) :=
    fun m n h => WithBot.coe_lt_coe.mpr h
  refine ⟨Or.inr nofun, ?_, ?_, trivial⟩
  · refine ⟨WithBot.bot_lt_coe 3, nofun, ⟨?_, ?_, trivial⟩, fun _ => rfl⟩
    · refine ⟨WithBot.bot_lt_coe 2, nofun, ⟨WithBot.bot_lt_coe 1, ?_, trivial⟩, fun _ => rfl⟩
      exact hlt 1 2 (by decide)
    · exact ⟨hlt 2 3 (by decide), nofun, ⟨hlt 2 3 (by decide), trivial⟩, fun _ => rfl⟩
  · refine ⟨hlt 3 5 (by decide), nofun, ⟨?_, trivial⟩, nofun⟩
    exact ⟨hlt 3 5 (by decide), nofun, ⟨hlt 3 5 (by decide), trivial⟩, nofun⟩

theorem sized {n : Nat} (hn : 2 ≤ n) : Sized n levels := by
  have hleaf : ∀ p bs, bs.length ≤ n → SizedSlot n 1 (leaf p bs) :=
    fun p bs h => ⟨h, fun _ _ => trivial⟩
  have hone : 1 ≤ n := le_trans one_le_two hn
  have hleft : SizedSlot n 2 left :=
    ⟨hn, sizedOf_cons.mpr ⟨hleaf 3 _ hn, sizedOf_cons.mpr ⟨hleaf 4 _ hone, nofun⟩⟩⟩
  have hright : SizedSlot n 2 right := ⟨hone, sizedOf_cons.mpr ⟨hleaf 5 _ hone, nofun⟩⟩
  exact ⟨hn, sizedOf_cons.mpr ⟨hleft, sizedOf_cons.mpr ⟨hright, nofun⟩⟩⟩

variable (layout) in
theorem agrees : session.Agrees layout := by
  refine ⟨levels, ⟨⟨⟨represented, by decide, rfl, balanced, by decide⟩, ?_, ?_, by decide⟩, valid⟩,
    rfl⟩
  · exact sized layout.two_le_nodeSize
  · exact valid.filled

def small : NodeLayout := ⟨3, 2, by decide, by decide⟩

/-- The leaf of 5 is cloned, filled and split. Then its left half is merged into its right half,
and that, at last, with the leaf of 3 below the other branch, which is cloned for it. The two
branches are merged with the leaves, and the root is dropped. -/
def updates : List (Update Nat) :=
  [.assign 4 ⟨4, 1⟩, .assign 6 ⟨5, 1⟩, .assign 7 ⟨6, 1⟩, .remove 4, .remove 6, .remove 7]

end TwoSnapshots

def Session.AbsentKeys (layout : NodeLayout) (s : Session K B) : Prop :=
  ∀ key, s.tree.find layout key = some none →
    (Harmless layout s.tree key ↔ ∀ k v, s.tree.find layout k = some (some v) → k < key)

theorem Session.Sound.absentKeys (h : s.Sound layout) : s.AbsentKeys layout := by
  obtain ⟨tree, h⟩ := h
  intro key _
  rw [harmless_iff h]
  have hfind : ∀ k v, s.tree.find layout k = some (some v) ↔ (k, v) ∈ flatRoot tree := by
    intro k v
    rw [find_eq_toMap h, Option.some.injEq, h.valid.sorted.toMap_eq_some_iff]
  constructor
  · intro hless k v hkv
    exact hless _ ((hfind k v).mp hkv)
  · rintro hless ⟨k, v⟩ hb
    exact hless k v ((hfind k v).mpr hb)

/-- Along every run that is in order, a removal of an absent key is harmless exactly where no
greater key is. -/
theorem absentKeys_run (h : s.Sound layout) {ops : List (Update K)}
    (hrun : EveryStep (Session.step layout) (Session.CallOk layout) s ops) :
    EveryState (Session.step layout) (Session.AbsentKeys layout) s ops := by
  refine EveryState.of_invariant ?_ (fun s hs => hs.absentKeys) h hrun
  intro s op s' hs hok hstep
  obtain ⟨s'', hstep', hs'', -⟩ := hs.step hok
  obtain rfl := Option.some.inj (hstep'.symm.trans hstep)
  exact hs''

theorem absentKeys_updates :
    EveryState (Session.step TwoSnapshots.small) (Session.AbsentKeys TwoSnapshots.small)
      TwoSnapshots.session TwoSnapshots.updates :=
  absentKeys_run (TwoSnapshots.agrees _).sound (by decide +kernel)

/-- Removing 3 from a tree with the key 5 removes the 5. -/
theorem remove_absent_harms :
    OneLeaf.session.Sound NodeLayout.store
      ∧ OneLeaf.session.tree.find NodeLayout.store 3 = some none
      ∧ ¬ Harmless NodeLayout.store OneLeaf.session.tree 3 := by
  refine ⟨⟨OneLeaf.leaf, OneLeaf.wellFormed⟩, by decide, fun hharmless => ?_⟩
  have hremoved : (OneLeaf.session.tree.remove NodeLayout.store 3).map Prod.snd = some true := by
    decide
  rw [hharmless.remove] at hremoved
  cases hremoved

structure Session.Represents (layout : NodeLayout) (s : Session K B) : Prop where
  find : ∀ key, s.tree.find layout key = some (s.map key)
  locate : ∀ key, ∃ iter leaf entries, s.tree.locate layout key = some iter
    ∧ iter.path.head? = some leaf ∧ s.tree.leafEntries leaf = some entries
    ∧ ∀ value, s.map key = some value ↔ entries[iter.idx]? = some (key, value)
  traverse : ∃ iter entries, s.tree.locateBegin = some iter
    ∧ (∀ fuel, entries.length < fuel → s.tree.traverse fuel iter = some entries)
    ∧ Sorted entries ∧ ∀ key value, (key, value) ∈ entries ↔ s.map key = some value

theorem Session.Agrees.represents (h : s.Agrees layout) : s.Represents layout := by
  obtain ⟨tree, h, hmap⟩ := h
  refine ⟨?_, ?_, ?_⟩
  · intro key
    rw [find_eq_toMap h, hmap]
  · intro key
    obtain ⟨c, l, left, right, hrun, hloc, hbindings, hleft, hright⟩ := h.locate key
    have hsorted : Sorted l.bindings := hloc.sorted h.valid
    have htoMap := hloc.toMap_eq h.valid
    obtain rfl := hloc.plug
    refine ⟨_, l.addr, l.bindings, hrun, rfl, leafEntries_of_bodyAt h.holds.bodyAt_node, ?_⟩
    intro value
    rw [← hmap, htoMap, hsorted.toMap_eq_some_iff]
    rw [hbindings] at hsorted ⊢
    rw [mem_iff_head hsorted hleft hright, List.getElem?_append_right le_rfl, Nat.sub_self,
      List.head?_eq_getElem?]
  · obtain ⟨iter, hbegin, -⟩ := traverse_begin_spec h.holds h.valid h.height
      (Nat.lt_succ_self _)
    refine ⟨iter, flatRoot tree, hbegin, ?_, h.valid.sorted, ?_⟩
    · intro fuel hfuel
      obtain ⟨iter', hbegin', htraverse⟩ := traverse_begin_spec h.holds h.valid h.height hfuel
      obtain rfl := Option.some.inj (hbegin'.symm.trans hbegin)
      exact htraverse
    · intro key value
      rw [← hmap, h.valid.sorted.toMap_eq_some_iff]

/-- A run of calls that are in order, on keys that are there, has no undefined step, and the tree
represents the map after each of them. -/
theorem represents_run (h : s.Agrees layout) {ops : List (Update K)}
    (hrun : EveryStep (Session.step layout) (fun s op => s.CallOk layout op ∧ s.Present op) s ops) :
    EveryState (Session.step layout) (Session.Represents layout) s ops
      ∧ EveryStep (Session.step layout) (fun s op => (s.step layout op).isSome = true) s ops := by
  have hstep : ∀ (s : Session K B) op s', s.Agrees layout → s.CallOk layout op ∧ s.Present op →
      s.step layout op = some s' → s'.Agrees layout := by
    intro s op s' hs hok hs'
    obtain ⟨s'', hstep, hs''⟩ := hs.step hok.1 hok.2
    obtain rfl := Option.some.inj (hstep.symm.trans hs')
    exact hs''
  refine ⟨EveryState.of_invariant hstep (fun s hs => hs.represents) h hrun, ?_⟩
  refine EveryStep.of_invariant hstep ?_ h hrun
  intro s op hs hok
  obtain ⟨s'', hstep, -⟩ := hs.step hok.1 hok.2
  rw [hstep]
  rfl

/-- A split, two merges and a root that is dropped, in a tree that shares its nodes. -/
theorem represents_updates :
    EveryState (Session.step TwoSnapshots.small) (Session.Represents TwoSnapshots.small)
        TwoSnapshots.session TwoSnapshots.updates
      ∧ EveryStep (Session.step TwoSnapshots.small)
        (fun s op => (s.step TwoSnapshots.small op).isSome = true) TwoSnapshots.session
        TwoSnapshots.updates :=
  represents_run (TwoSnapshots.agrees _) (by decide +kernel)

/-- The merge that follows the removal clones the parent a second time and then works on the first
clone. -/
theorem remove_shared_undefined :
    TwoSnapshots.session.Agrees NodeLayout.store ∧ TwoSnapshots.session.Present (.remove 1)
      ∧ ¬ EveryStep (Session.step NodeLayout.store)
        (fun s op => (s.step NodeLayout.store op).isSome = true) TwoSnapshots.session
        [.remove 1] := by
  refine ⟨TwoSnapshots.agrees _, ⟨⟨0, 0⟩, by decide⟩, ?_⟩
  rintro ⟨hsome, -⟩
  have hnone : (TwoSnapshots.session.step NodeLayout.store (.remove 1)).isSome = false := by decide
  rw [hnone] at hsome
  cases hsome

end Memoria.PersistentTree

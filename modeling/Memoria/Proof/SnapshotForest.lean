import Memoria.Proof.SnapshotBlocks
import Memoria.Proof.TreeDelete

/-!
# The trees of all snapshots

The snapshots of a store stand for a forest in one heap: every snapshot with data has a root of its
own, and what is below the roots may be shared. What one snapshot does with its tree keeps every
other tree, a branch adds a root, and a snapshot that goes takes its root and what only it could
reach.
-/

namespace Memoria.PersistentTree

open Lib

variable {K B : Type}

structure Forest (K : Type) where
  root : Nat → Option Nat
  values : Nat → K → Option Value
  active : Nat → Option Nat

namespace Forest

def setTree (f : Forest K) (p root : Nat) (values : K → Option Value) : Forest K :=
  { f with
    root := Function.update f.root p (some root)
    values := Function.update f.values p values }

def dropTree (f : Forest K) (p : Nat) : Forest K := { f with root := Function.update f.root p none }

end Forest

open Classical in
noncomputable def held (roots : Nat → Option Nat) : Ptr → Nat
  | .node r => if ∃ p, roots p = some r then 1 else 0
  | .block _ => 0

structure Stands [LinearOrder K] [Inhabited K] (layout : NodeLayout) (t : PersistentTree K B)
    (r : Nat) (tree : Root K Value) : Prop where
  addr : tree.2.addr = r
  rep : RepRoot t.bodyAt tree
  nodup : (rootAddrs tree).Nodup
  one : t.refsOf (.node r) = 1
  valid : Valid tree
  sized : Sized layout.nodeSize tree
  height : tree.1 < pathSize

structure Planted [LinearOrder K] [Inhabited K] (layout : NodeLayout) (t : PersistentTree K B)
    (f : Forest K) : Prop where
  distinct : ∀ p q r, f.root p = some r → f.root q = some r → p = q
  balanced : Balanced t (held f.root)
  tree : ∀ p r, f.root p = some r →
    ∃ tree, Stands layout t r tree ∧ toMap (flatRoot tree) = f.values p
  counted : Counted t

section Held

variable {roots : Nat → Option Nat} {p q r : Nat}

theorem held_of_root (h : roots p = some r) : held roots (.node r) = 1 := if_pos ⟨p, h⟩

theorem held_pos_iff : 0 < held roots (.node r) ↔ ∃ p, roots p = some r := by
  by_cases h : ∃ p, roots p = some r
  · simp [held, h]
  · simp [held, h]

/-- The root of one more snapshot. -/
theorem withRoot_held (hfresh : ∀ q, roots q ≠ some r) (hp : roots p = none) :
    withRoot (held roots) r = held (Function.update roots p (some r)) := by
  funext x
  cases x with
  | block b => rfl
  | node q =>
      by_cases hq : q = r
      · subst hq
        have hzero : held roots (.node q) = 0 := if_neg (not_exists.mpr hfresh)
        rw [withRoot, hzero, if_pos rfl, held_of_root (p := p) (Function.update_self ..)]
      · have hiff : (∃ p', Function.update roots p (some r) p' = some q)
            ↔ ∃ p', roots p' = some q := by
          constructor
          · rintro ⟨p', h⟩
            by_cases hpp : p' = p
            · rw [hpp, Function.update_self] at h
              exact absurd (Option.some.inj h).symm hq
            · exact ⟨p', by rwa [Function.update_of_ne hpp] at h⟩
          · rintro ⟨p', h⟩
            have hpp : p' ≠ p := by
              rintro rfl
              rw [hp] at h
              cases h
            exact ⟨p', by rwa [Function.update_of_ne hpp]⟩
        rw [withRoot, if_neg (by simpa using hq), Nat.add_zero]
        by_cases hroot : ∃ p', roots p' = some q
        · rw [held, held, if_pos hroot, if_pos (hiff.mpr hroot)]
        · rw [held, held, if_neg hroot, if_neg (fun h => hroot (hiff.mp h))]

theorem update_none_ne (hdistinct : ∀ p q r, roots p = some r → roots q = some r → p = q)
    (hp : roots p = some r) (q : Nat) : Function.update roots p none q ≠ some r := by
  by_cases hq : q = p
  · rw [hq, Function.update_self]
    intro hnone
    cases hnone
  · rw [Function.update_of_ne hq]
    exact fun h => hq (hdistinct q p r h hp)

/-- A root that no other snapshot has. -/
theorem distinct_update (hdistinct : ∀ p q r, roots p = some r → roots q = some r → p = q)
    (hfresh : ∀ q, q ≠ p → roots q ≠ some r) (a b s : Nat)
    (ha : Function.update roots p (some r) a = some s)
    (hb : Function.update roots p (some r) b = some s) : a = b := by
  by_cases heq : a = p <;> by_cases heq' : b = p
  · rw [heq, heq']
  · rw [heq, Function.update_self] at ha
    rw [Function.update_of_ne heq', ← ha] at hb
    exact absurd hb (hfresh b heq')
  · rw [heq', Function.update_self] at hb
    rw [Function.update_of_ne heq, ← hb] at ha
    exact absurd ha (hfresh a heq)
  · rw [Function.update_of_ne heq] at ha
    rw [Function.update_of_ne heq'] at hb
    exact hdistinct a b s ha hb

/-- One root seen apart from the others. -/
theorem withRoot_held_update (hdistinct : ∀ p q r, roots p = some r → roots q = some r → p = q)
    (hp : roots p = some r) : withRoot (held (Function.update roots p none)) r = held roots := by
  rw [withRoot_held (update_none_ne hdistinct hp) (Function.update_self ..),
    Function.update_idem, ← hp, Function.update_eq_self]

theorem holding_held (hdistinct : ∀ p q r, roots p = some r → roots q = some r → p = q)
    (hp : roots p = some r) : holding (held (Function.update roots p none)) [.node r] = held roots := by
  rw [← withRoot_held_update hdistinct hp]
  funext x
  rw [holding_cons_apply, holding_nil]
  rfl

end Held

variable [LinearOrder K] [Inhabited K] {layout : NodeLayout} {t t' : PersistentTree K B}
  {f : Forest K} {p q r : Nat} {tree : Root K Value}

/-- A tree among all others. -/
theorem Planted.wellFormed (h : Planted layout t f) (hp : f.root p = some r) (hroot : t.root = r) :
    ∃ tree, WellFormed layout t (held (Function.update f.root p none)) tree ∧
      toMap (flatRoot tree) = f.values p := by
  obtain ⟨tree, hstands, hmap⟩ := h.tree p r hp
  refine ⟨tree, ⟨⟨⟨hstands.rep, hstands.nodup, hroot.trans hstands.addr.symm, ?_, ?_⟩,
    hstands.sized, hstands.valid.filled, hstands.height⟩, hstands.valid⟩, hmap⟩
  · rw [hroot, withRoot_held_update h.distinct hp]
    exact h.balanced
  · rw [hroot]
    exact hstands.one

omit [LinearOrder K] [Inhabited K] in
/-- A binding of a tree stands in one of its leaves. -/
theorem exists_leaf_of_mem_flatOf {m : Nat → Option (Body K)} {l : Nat} {s : Slot K Value (l + 1)}
    (hrep : Rep m (l + 1) s) {b : K × Value} (hb : b ∈ flatOf s.entries) :
    ∃ q es, m q = some (.leaf es) ∧ b ∈ es := by
  induction l with
  | zero =>
      rw [flatOf_leaf] at hb
      exact ⟨s.addr, s.bindings, hrep.1, hb⟩
  | succ l ih =>
      obtain ⟨e, he, hbe⟩ := List.mem_flatMap.mp hb
      exact ih (hrep.2 e he) hbe

/-- A block that a snapshot shows is there. -/
theorem Planted.exists_block (h : Planted layout t f) (hp : f.root p = some r) {k : K} {v : Value}
    (hv : f.values p k = some v) :
    ∃ block, t.blocks.read v.blockPtr = some block ∧ 0 < t.refsOf (.block v.blockPtr) := by
  obtain ⟨tree, hstands, hmap⟩ := h.tree p r hp
  rw [← hmap, hstands.valid.sorted.toMap_eq_some_iff] at hv
  obtain ⟨q, es, hbody, hmem⟩ := exists_leaf_of_mem_flatOf hstands.rep hv
  have hpos := h.balanced.refs_pos hbody (x := .block v.blockPtr)
    (List.mem_map.mpr ⟨(k, v), hmem, rfl⟩)
  obtain ⟨block, hblock⟩ := exists_block_of_refs hpos.ne'
  exact ⟨block, hblock, hpos⟩

/-- A block pointer that a snapshot has is not the next one. -/
theorem Planted.ne_next (h : Planted layout t f) (hp : f.root p = some r) {k : K} {v : Value}
    (hv : f.values p k = some v) : v.blockPtr ≠ t.blocks.next := by
  intro heq
  obtain ⟨block, hblock, -⟩ := h.exists_block hp hv
  rw [heq, Heap.read_next] at hblock
  cases hblock

def shown (t : PersistentTree K B) (values : K → Option Value) (id : K) : Option B :=
  (values id).bind fun v => (t.blocks.read v.blockPtr).map Block.data

omit [LinearOrder K] [Inhabited K] in
/-- Only the counters of blocks matter. -/
theorem refsOf_congr (hnodes : t'.nodes = t.nodes)
    (hblocks : ∀ b, (t'.blocks.read b).map Block.refs = (t.blocks.read b).map Block.refs) (x : Ptr) :
    t'.refsOf x = t.refsOf x := by
  cases x with
  | node p => simp only [refsOf, hnodes]
  | block b =>
      have hb := hblocks b
      unfold refsOf
      cases hread : t.blocks.read b <;> cases hread' : t'.blocks.read b <;> simp_all

/-- The same nodes, and blocks with the same counters. -/
theorem Planted.congr (h : Planted layout t f) (hnodes : t'.nodes = t.nodes)
    (hblocks : ∀ b, (t'.blocks.read b).map Block.refs = (t.blocks.read b).map Block.refs) :
    Planted layout t' f := by
  have hbody : t'.bodyAt = t.bodyAt := by
    funext p
    rw [bodyAt, bodyAt, hnodes]
  refine ⟨h.distinct, ?_, ?_, ?_⟩
  · intro x
    have hslots : t'.slots x = t.slots x := by rw [slots, slots, hnodes]
    rw [refsOf_congr hnodes hblocks, hslots]
    exact h.balanced x
  · intro p r hp
    obtain ⟨tree, hstands, hmap⟩ := h.tree p r hp
    exact ⟨tree, ⟨hstands.addr, hbody ▸ hstands.rep, hstands.nodup,
      (refsOf_congr hnodes hblocks _).trans hstands.one, hstands.valid, hstands.sized,
      hstands.height⟩, hmap⟩
  · intro b block hb
    have hread := hblocks b
    rw [hb, Option.map_some] at hread
    obtain ⟨block', hb', heq⟩ := Option.map_eq_some_iff.mp hread.symm
    rw [← heq]
    exact h.counted b block' hb'

/-- `findBlock` and the data it leads to. -/
theorem Planted.getBlock (h : Planted layout t f) (hp : f.root p = some r) (hroot : t.root = r)
    (id : K) : t.getBlock layout id = some (shown t (f.values p) id) := by
  obtain ⟨tree, hwf, hmap⟩ := h.wellFormed hp hroot
  have hfind : t.find layout id = some (f.values p id) := by
    rw [find_eq_toMap hwf, hmap]
  unfold PersistentTree.getBlock shown
  rw [hfind]
  cases hv : f.values p id with
  | none => rfl
  | some v =>
      obtain ⟨block, hblock, -⟩ := h.exists_block hp hv
      simp only [Option.bind_eq_bind, Option.bind_some, hblock, Option.map_some]

/-- An update of the tree of one snapshot. -/
theorem Planted.setTree (h : Planted layout t f)
    (hwf : WellFormed layout t' (held (Function.update f.root p none)) tree)
    (hkeeps : Keeps (held (Function.update f.root p none)) t t') (hcounted : Counted t → Counted t') :
    Planted layout t' (f.setTree p t'.root (toMap (flatRoot tree))) := by
  -- The new root has no holder but the snapshot.
  have hfresh : ∀ q, Function.update f.root p none q ≠ some t'.root := by
    intro q hq
    have hone := hwf.holds.owned
    have hbal := hwf.holds.balanced (.node t'.root)
    rw [withRoot, if_pos rfl, held_of_root hq] at hbal
    omega
  have hroots : Function.update (Function.update f.root p none) p (some t'.root)
      = Function.update f.root p (some t'.root) := Function.update_idem ..
  have hothers : ∀ q s, q ≠ p → f.root q = some s →
      Function.update f.root p none q = some s := by
    intro q s hq hs
    rw [Function.update_of_ne hq, hs]
  refine ⟨distinct_update h.distinct ?_, ?_, ?_, hcounted h.counted⟩
  · intro q hq hroot
    exact hfresh q (hothers q _ hq hroot)
  · have hbal := hwf.holds.balanced
    rw [withRoot_held hfresh (Function.update_self ..), hroots] at hbal
    exact hbal
  · intro q s hq
    change Function.update f.root p (some t'.root) q = some s at hq
    change ∃ tree', Stands layout t' s tree' ∧ toMap (flatRoot tree')
      = Function.update f.values p (toMap (flatRoot tree)) q
    by_cases heq : q = p
    · rw [heq, Function.update_self] at hq
      obtain rfl := Option.some.inj hq
      rw [heq, Function.update_self]
      exact ⟨tree, ⟨hwf.holds.root.symm, hwf.holds.rep, hwf.holds.nodup, hwf.holds.owned, hwf.valid,
        hwf.sized, hwf.height⟩, rfl⟩
    · rw [Function.update_of_ne heq] at hq ⊢
      obtain ⟨tree', hstands, hmap⟩ := h.tree q s hq
      have hext : 0 < held (Function.update f.root p none) (.node s) :=
        held_pos_iff.mpr ⟨q, hothers q s heq hq⟩
      refine ⟨tree', ⟨hstands.addr, ?_, hstands.nodup, hkeeps.refs s hext hstands.one,
        hstands.valid, hstands.sized, hstands.height⟩, hmap⟩
      exact hkeeps.rep _ _ (by rw [hstands.addr]; exact hext) hstands.rep

/-- The root of a snapshot is cloned for a new one. -/
theorem Planted.cloneRoot (h : Planted layout t f) (hp : f.root p = some r) (hq : f.root q = none) :
    ∃ t₁ t₂, t.cloneNode r = some t₁ ∧ t₁.refNode t.nodes.next = some t₂ ∧
      Planted layout t₂ (f.setTree q t.nodes.next (f.values p)) ∧ BlocksKept t t₂ := by
  obtain ⟨tree, hstands, hmap⟩ := h.tree p r hp
  have hbody : t.bodyAt r = some (content tree.1 tree.2.entries) := hstands.addr ▸ hstands.rep.1
  obtain ⟨t₁, hrun₁, hbody₁, hrefs₁, hslots₁, -, -, -⟩ :=
    cloneNode_spec hbody fun x hx => h.balanced.refs_pos hbody hx
  have hclone : t₁.bodyAt t.nodes.next = some (content tree.1 tree.2.entries) := by
    rw [hbody₁, if_pos rfl]
  obtain ⟨t₂, hrun₂, hsame₂, hrefs₂⟩ := refNode_spec hclone
  have hkept : BlocksKept t t₂ := (blocksKept_cloneNode hrun₁).trans (.of_eq (blocks_refNode hrun₂))
  have hbody₂ : ∀ a, a < t.nodes.next → t₂.bodyAt a = t.bodyAt a := by
    intro a ha
    rw [hsame₂.body, hbody₁, if_neg (by omega)]
  have hrep₂ : ∀ {l : Nat} {s : Slot K Value l}, Rep t.bodyAt l s → Rep t₂.bodyAt l s := by
    intro l s hrep
    refine hrep.congr fun a ha => hbody₂ a ?_
    obtain ⟨b, hb⟩ := hrep.exists_content ha
    exact lt_next_of_bodyAt hb
  have hrefs : ∀ x, t₂.refsOf x
      = t.refsOf x + (ptrs (content tree.1 tree.2.entries)).count x
        + if x = .node t.nodes.next then 1 else 0 := by
    intro x
    rw [hrefs₂, hrefs₁]
  have hroots : ∀ {a s}, f.root a = some s → s < t.nodes.next := by
    intro a s ha
    obtain ⟨tree', hstands', -⟩ := h.tree a s ha
    have hlive := hstands'.rep.1
    rw [hstands'.addr] at hlive
    exact lt_next_of_bodyAt hlive
  have hfresh : ∀ a, f.root a ≠ some t.nodes.next := fun a ha => lt_irrefl _ (hroots ha)
  -- Nothing in the heap points at a root, nor at the address of the clone.
  have hzero : ∀ {s}, t.slots (.node s) = 0 →
      (ptrs (content tree.1 tree.2.entries)).count (.node s) = 0 := by
    intro s hs
    have := count_le_slots hbody (.node s)
    omega
  have hnext : t.refsOf (.node t.nodes.next) = 0 := by simp [refsOf]
  have hnextSlots : t.slots (.node t.nodes.next) = 0 := by
    have hbal := h.balanced (.node t.nodes.next)
    omega
  refine ⟨t₁, t₂, hrun₁, hrun₂, ⟨distinct_update h.distinct fun a _ => hfresh a, ?_, ?_,
    hkept.counted h.counted⟩, hkept⟩
  · intro x
    have hheld := congrFun (withRoot_held hfresh hq) x
    have hbal := h.balanced x
    change _ = _ + ((held (Function.update f.root q (some t.nodes.next)) x : Nat) : Int)
    rw [← hheld, hrefs, hsame₂.slots, hslots₁, withRoot]
    split_ifs <;> omega
  · intro a s ha
    change Function.update f.root q (some t.nodes.next) a = some s at ha
    change ∃ tree', Stands layout t₂ s tree' ∧ toMap (flatRoot tree')
      = Function.update f.values q (f.values p) a
    by_cases heq : a = q
    · rw [heq, Function.update_self] at ha
      obtain rfl := Option.some.inj ha
      rw [heq, Function.update_self, ← hmap]
      have hold : ∀ a ∈ addrsOf tree.2.entries, a < t.nodes.next := by
        intro a ha
        obtain ⟨b, hb⟩ := Lib.Rep.exists_content hstands.rep
          (show a ∈ addrs (tree.1 + 1) tree.2 from List.mem_cons_of_mem _ ha)
        exact lt_next_of_bodyAt hb
      refine ⟨⟨tree.1, .node t.nodes.next tree.2.entries⟩, ⟨rfl, ⟨?_, ?_⟩, ?_, ?_, hstands.valid,
        hstands.sized, hstands.height⟩, rfl⟩
      · exact (hsame₂.body _).trans hclone
      · exact fun e he => hrep₂ (hstands.rep.2 e he)
      · exact List.nodup_cons.mpr ⟨fun hmem => lt_irrefl _ (hold _ hmem),
          (List.nodup_cons.mp hstands.nodup).2⟩
      · rw [hrefs, hnext, hzero hnextSlots, if_pos rfl]
        rfl
    · rw [Function.update_of_ne heq] at ha ⊢
      obtain ⟨tree', hstands', hmap'⟩ := h.tree a s ha
      have hslots : t.slots (.node s) = 0 := by
        have hbal := h.balanced (.node s)
        rw [hstands'.one, held_of_root ha] at hbal
        omega
      refine ⟨tree', ⟨hstands'.addr, hrep₂ hstands'.rep, hstands'.nodup, ?_, hstands'.valid,
        hstands'.sized, hstands'.height⟩, hmap'⟩
      have hne : Ptr.node s ≠ .node t.nodes.next := by
        have := hroots ha
        simp only [ne_eq, Ptr.node.injEq]
        omega
      rw [hrefs, hstands'.one, hzero hslots, if_neg hne]
      rfl

/-- The tree of a snapshot is deleted. -/
theorem Planted.deleteTree (h : Planted layout t f) (hp : f.root p = some r) (hroot : t.root = r) :
    ∃ t', t.deleteTree = some t' ∧ Planted layout t' (f.dropTree p) ∧ BlocksKept t t' := by
  obtain ⟨tree, hwf, -⟩ := h.wellFormed hp hroot
  have hheight := lt_of_lt_of_le hwf.filled.lt_length_rootAddrs hwf.holds.length_rootAddrs_le
  have hbalanced : Balanced t
      (holding (held (Function.update f.root p none)) [.node t.root]) := by
    rw [hroot, holding_held h.distinct hp]
    exact h.balanced
  obtain ⟨t', hrun, hbal, hreleased⟩ :=
    deleteTree_spec hwf.holds.root hheight hwf.holds.rep hbalanced
  have hkept : BlocksKept t t' := blocksKept_deleteNode hrun
  refine ⟨t', hrun, ⟨?_, hbal, ?_, hkept.counted h.counted⟩, hkept⟩
  · intro q q' s hq hq'
    have hback : ∀ {q}, (f.dropTree p).root q = some s → f.root q = some s := by
      intro q hq
      change Function.update f.root p none q = some s at hq
      by_cases heq : q = p
      · rw [heq, Function.update_self] at hq
        cases hq
      · rwa [Function.update_of_ne heq] at hq
    exact h.distinct q q' s (hback hq) (hback hq')
  · intro q s hq
    change Function.update f.root p none q = some s at hq
    have hext : held (Function.update f.root p none) (.node s) = 1 := held_of_root hq
    have heq : q ≠ p := by
      rintro rfl
      rw [Function.update_self] at hq
      cases hq
    rw [Function.update_of_ne heq] at hq
    obtain ⟨tree', hstands, hmap⟩ := h.tree q s hq
    have hcount := hbal (.node s)
    have hle := hreleased.le (.node s)
    have hone := hstands.one
    have hpos : 0 < t'.refsOf (.node tree'.2.addr) := by
      rw [hstands.addr]
      omega
    refine ⟨tree', ⟨hstands.addr, ?_, hstands.nodup, by omega, hstands.valid, hstands.sized,
      hstands.height⟩, hmap⟩
    exact hreleased.rep (releasing_nil.mpr hbal) hstands.rep hpos

end Memoria.PersistentTree

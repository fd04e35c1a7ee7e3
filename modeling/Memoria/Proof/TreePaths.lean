import Memoria.Proof.TreeHeap

/-!
# Making a path one's own

The heap of nodes is shared by all snapshots. What an update may write to is a path whose nodes all
have one reference: no other snapshot can reach these. `update_path` provides such a path, by cloning
where it must, and leaves every other tree as it was.
-/

namespace Memoria.PersistentTree

open Lib

variable {K B : Type}

def withRoot (others : Ptr → Nat) (root : Nat) (x : Ptr) : Nat :=
  others x + if x = .node root then 1 else 0

structure Holds (t : PersistentTree K B) (others : Ptr → Nat) (r : Root K Value) : Prop where
  rep : RepRoot t.bodyAt r
  nodup : (rootAddrs r).Nodup
  root : t.root = r.2.addr
  balanced : Balanced t (withRoot others t.root)
  owned : t.refsOf (.node t.root) = 1

def Owned (t : PersistentTree K B) (path : List Nat) : Prop := ∀ p ∈ path, t.refsOf (.node p) = 1

structure Keeps (others : Ptr → Nat) (t t' : PersistentTree K B) : Prop where
  rep : ∀ (l : Nat) (s : Slot K Value (l + 1)), 0 < others (.node s.addr) →
    Rep t.bodyAt (l + 1) s → Rep t'.bodyAt (l + 1) s
  refs : ∀ p, 0 < others (.node p) → t.refsOf (.node p) = 1 → t'.refsOf (.node p) = 1

theorem Keeps.refl (others : Ptr → Nat) (t : PersistentTree K B) : Keeps others t t :=
  ⟨fun _ _ _ h => h, fun _ _ h => h⟩

theorem Keeps.trans {others : Ptr → Nat} {t t' t'' : PersistentTree K B} (h : Keeps others t t')
    (h' : Keeps others t' t'') : Keeps others t t'' :=
  ⟨fun l s hext hrep => h'.rep l s hext (h.rep l s hext hrep),
    fun p hext hone => h'.refs p hext (h.refs p hext hone)⟩

/-- One address in two places. -/
theorem two_le_slots {t : PersistentTree K B} {p q : Nat} {b b' : Body K}
    (hp : t.bodyAt p = some b) (hq : t.bodyAt q = some b') (hne : p ≠ q) {x : Ptr}
    (hxp : x ∈ ptrs b) (hxq : x ∈ ptrs b') : 2 ≤ t.slots x := by
  obtain ⟨n, hn, rfl⟩ := read_of_bodyAt hp
  obtain ⟨n', hn', rfl⟩ := read_of_bodyAt hq
  have hsum := Heap.add_le_sum hn hn' hne fun _ n => (ptrs n.body).count x
  have hcount : 0 < (ptrs n.body).count x := List.count_pos_iff.mpr hxp
  have hcount' : 0 < (ptrs n'.body).count x := List.count_pos_iff.mpr hxq
  unfold slots
  omega

theorem node_mem_ptrs_branch {es : List (K × Nat)} {p : Nat} :
    Ptr.node p ∈ ptrs (.branch es : Body K) ↔ ∃ e ∈ es, e.2 = p := by
  simp [ptrs]

theorem mem_ptrs_pointersAt {l : Nat} (f : Frame K Value l) (p : Nat) :
    Ptr.node p ∈ ptrs (.branch (f.pointersAt p) : Body K) :=
  node_mem_ptrs_branch.mpr ⟨(f.key, p), by simp [Frame.pointersAt], rfl⟩

/-- No other holder has a node on a path that is owned. -/
theorem Holds.not_mem_of_ext {t : PersistentTree K B} {others : Ptr → Nat} {l : Nat}
    {c : Ctx K Value l} {s : Slot K Value (l + 1)} (h : Holds t others (c.plug s))
    (howned : Owned t (s.addr :: c.path)) {q : Nat} (hext : 0 < others (.node q)) :
    q ∉ s.addr :: c.path := by
  induction c with
  | top =>
      intro hmem
      obtain rfl : q = s.addr := by simpa [Ctx.path] using hmem
      have hone := howned s.addr List.mem_cons_self
      have hroot : t.root = s.addr := h.root
      have hbal := h.balanced (.node s.addr)
      rw [withRoot, hroot, if_pos rfl] at hbal
      omega
  | up f c ih =>
      intro hmem
      rcases List.mem_cons.mp hmem with rfl | hmem
      · have hone := howned s.addr List.mem_cons_self
        have hbal := h.balanced (.node s.addr)
        have hbody : t.bodyAt f.addr = some (.branch (f.pointersAt s.addr)) :=
          ((repRoot_plug (.up f c) s).mp h.rep).2.1
        have hslot := count_le_slots hbody (.node s.addr)
        have hpos := List.count_pos_iff.mpr (mem_ptrs_pointersAt f s.addr)
        unfold withRoot at hbal
        omega
      · exact ih h (fun p hp => howned p (List.mem_cons_of_mem _ hp)) hmem

/-- A tree whose root is not on an owned path has no node of it. -/
theorem Holds.not_mem_other {t : PersistentTree K B} {others : Ptr → Nat} {l : Nat}
    {c : Ctx K Value l} {s : Slot K Value (l + 1)} (h : Holds t others (c.plug s))
    (howned : Owned t (s.addr :: c.path)) {l' : Nat} {s' : Slot K Value (l' + 1)}
    (haddr : s'.addr ∉ s.addr :: c.path) (hrep : Rep t.bodyAt (l' + 1) s') :
    ∀ p ∈ s.addr :: c.path, p ∉ addrs (l' + 1) s' := by
  induction c with
  | top =>
      intro p hp hmem
      obtain rfl : p = s.addr := by simpa [Ctx.path] using hp
      have hone := howned s.addr List.mem_cons_self
      have hroot : t.root = s.addr := h.root
      have hbal := h.balanced (.node s.addr)
      rw [withRoot, hroot, if_pos rfl] at hbal
      rcases hrep.parent hmem with heq | ⟨q, -, es, hes, e, he, heq⟩
      · exact haddr (heq ▸ hp)
      · have hslot := count_le_slots hes (.node s.addr)
        have hpos : 0 < (ptrs (.branch es : Body K)).count (.node s.addr) :=
          List.count_pos_iff.mpr (node_mem_ptrs_branch.mpr ⟨e, he, heq⟩)
        omega
  | up f c ih =>
      have hupper := ih h (fun p hp => howned p (List.mem_cons_of_mem _ hp))
        fun hmem => haddr (List.mem_cons_of_mem _ hmem)
      intro p hp
      rcases List.mem_cons.mp hp with rfl | hp
      · intro hmem
        have hone := howned s.addr List.mem_cons_self
        have hbal := h.balanced (.node s.addr)
        have hbody : t.bodyAt f.addr = some (.branch (f.pointersAt s.addr)) :=
          ((repRoot_plug (.up f c) s).mp h.rep).2.1
        unfold withRoot at hbal
        rcases hrep.parent hmem with heq | ⟨q, hq, es, hes, e, he, heq⟩
        · exact haddr (heq ▸ List.mem_cons_self)
        · have hne : q ≠ f.addr := by
            rintro rfl
            exact hupper f.addr List.mem_cons_self hq
          have htwo := two_le_slots hes hbody hne (node_mem_ptrs_branch.mpr ⟨e, he, heq⟩)
            (mem_ptrs_pointersAt f s.addr)
          omega
      · exact hupper p hp

section Keep

variable {t t' : PersistentTree K B} {others : Ptr → Nat} {l : Nat} {c : Ctx K Value l}
  {s : Slot K Value (l + 1)}

/-- Writes to an owned path, and to nodes that did not exist, leave the other trees alone. -/
theorem Holds.rep_kept (h : Holds t others (c.plug s)) (howned : Owned t (s.addr :: c.path))
    (hsame : ∀ p, p < t.nodes.next → p ∉ s.addr :: c.path → t'.bodyAt p = t.bodyAt p) {l' : Nat}
    {s' : Slot K Value (l' + 1)} (haddr : s'.addr ∉ s.addr :: c.path)
    (hrep : Rep t.bodyAt (l' + 1) s') : Rep t'.bodyAt (l' + 1) s' := by
  refine hrep.congr ?_
  intro p hp
  obtain ⟨b, hb⟩ := hrep.exists_content hp
  refine hsame p (lt_next_of_bodyAt hb) ?_
  intro hmem
  exact h.not_mem_other howned haddr hrep p hmem hp

theorem Holds.keeps (h : Holds t others (c.plug s)) (howned : Owned t (s.addr :: c.path))
    (hsame : ∀ p, p < t.nodes.next → p ∉ s.addr :: c.path → t'.bodyAt p = t.bodyAt p)
    (hrefs : ∀ p b, t.bodyAt p = some b → p ∉ s.addr :: c.path →
      t'.refsOf (.node p) = t.refsOf (.node p)) : Keeps others t t' := by
  refine ⟨?_, ?_⟩
  · intro l' s' hext hrep
    exact h.rep_kept howned hsame (h.not_mem_of_ext howned hext) hrep
  · intro p hext hone
    obtain ⟨b, hb⟩ := exists_body_of_refs (by omega : t.refsOf (.node p) ≠ 0)
    rw [hrefs p b hb (h.not_mem_of_ext howned hext), hone]

end Keep

theorem refChildren_spec {t : PersistentTree K B} {es : List (K × Nat)}
    (hlive : ∀ x ∈ ptrs (.branch es : Body K), 0 < t.refsOf x) :
    ∃ t', t.refChildren es = some t' ∧ SameBodies t t' ∧
      ∀ x, t'.refsOf x = t.refsOf x + (ptrs (.branch es : Body K)).count x := by
  induction es generalizing t with
  | nil => exact ⟨t, rfl, .refl t, by simp [ptrs]⟩
  | cons e es ih =>
      have hpos : 0 < t.refsOf (.node e.2) := hlive _ List.mem_cons_self
      obtain ⟨b, hb⟩ := exists_body_of_refs (by omega : t.refsOf (.node e.2) ≠ 0)
      obtain ⟨t₁, ht₁, hsame₁, hrefs₁⟩ := refNode_spec hb
      obtain ⟨t₂, ht₂, hsame₂, hrefs₂⟩ := ih (t := t₁) (fun x hx => by
        have := hlive x (List.mem_cons_of_mem _ hx)
        rw [hrefs₁]
        split <;> omega)
      refine ⟨t₂, ?_, hsame₁.trans hsame₂, ?_⟩
      · simp only [refChildren, List.foldlM_cons, ht₁, Option.bind_eq_bind, Option.bind_some]
        exact ht₂
      · intro x
        rw [hrefs₂, hrefs₁]
        simp only [ptrs, List.map_cons, List.count_cons, beq_iff_eq, eq_comm (b := x)]
        split <;> omega

theorem refBlocks_spec {t : PersistentTree K B} {es : List (K × Value)}
    (hlive : ∀ x ∈ ptrs (.leaf es : Body K), 0 < t.refsOf x) :
    ∃ t', t.refBlocks es = some t' ∧ SameBodies t t' ∧
      ∀ x, t'.refsOf x = t.refsOf x + (ptrs (.leaf es : Body K)).count x := by
  induction es generalizing t with
  | nil => exact ⟨t, rfl, .refl t, by simp [ptrs]⟩
  | cons e es ih =>
      have hpos : 0 < t.refsOf (.block e.2.blockPtr) := hlive _ List.mem_cons_self
      obtain ⟨b, hb⟩ := exists_block_of_refs (by omega : t.refsOf (.block e.2.blockPtr) ≠ 0)
      obtain ⟨t₁, ht₁, hsame₁, hrefs₁⟩ := refBlock_spec hb
      obtain ⟨t₂, ht₂, hsame₂, hrefs₂⟩ := ih (t := t₁) (fun x hx => by
        have := hlive x (List.mem_cons_of_mem _ hx)
        rw [hrefs₁]
        split <;> omega)
      refine ⟨t₂, ?_, hsame₁.trans hsame₂, ?_⟩
      · simp only [refBlocks, List.foldlM_cons, ht₁, Option.bind_eq_bind, Option.bind_some]
        exact ht₂
      · intro x
        rw [hrefs₂, hrefs₁]
        simp only [ptrs, List.map_cons, List.count_cons, beq_iff_eq, eq_comm (b := x)]
        split <;> omega

/-- A clone holds what its original holds, and counts in there. -/
theorem cloneNode_spec {t : PersistentTree K B} {p : Nat} {b : Body K}
    (hbody : t.bodyAt p = some b) (hlive : ∀ x ∈ ptrs b, 0 < t.refsOf x) :
    ∃ t', t.cloneNode p = some t' ∧
      (∀ q, t'.bodyAt q = if q = t.nodes.next then some b else t.bodyAt q) ∧
      (∀ x, t'.refsOf x = t.refsOf x + (ptrs b).count x) ∧
      (∀ x, t'.slots x = t.slots x + (ptrs b).count x) ∧
      t'.nodes.next = t.nodes.next + 1 ∧ t'.root = t.root ∧ t'.snapshotId = t.snapshotId := by
  obtain ⟨n, hn, rfl⟩ := read_of_bodyAt hbody
  have hcreate : ∀ x ∈ ptrs n.body, 0 < (t.createNode n.metadata n.body).refsOf x := by
    intro x hx
    rw [refsOf_createNode]
    exact hlive x hx
  have hfinish : ∀ t', SameBodies (t.createNode n.metadata n.body) t' →
      (∀ x, t'.refsOf x = (t.createNode n.metadata n.body).refsOf x + (ptrs n.body).count x) →
      (∀ q, t'.bodyAt q = if q = t.nodes.next then some n.body else t.bodyAt q) ∧
      (∀ x, t'.refsOf x = t.refsOf x + (ptrs n.body).count x) ∧
      (∀ x, t'.slots x = t.slots x + (ptrs n.body).count x) ∧
      t'.nodes.next = t.nodes.next + 1 ∧ t'.root = t.root ∧ t'.snapshotId = t.snapshotId := by
    intro t' hsame hrefs
    refine ⟨?_, ?_, ?_, hsame.next, hsame.root, hsame.snapshotId⟩
    · intro q
      rw [hsame.body, bodyAt_createNode]
    · intro x
      rw [hrefs, refsOf_createNode]
    · intro x
      rw [hsame.slots, slots_createNode]
  cases hb : n.body with
  | leaf es =>
      rw [hb] at hcreate
      obtain ⟨t', ht', hsame, hrefs⟩ := refBlocks_spec hcreate
      rw [← hb] at hsame hrefs ⊢
      refine ⟨t', ?_, hfinish t' hsame hrefs⟩
      simp only [cloneNode, hn, Option.bind_eq_bind, Option.bind_some, hb]
      exact ht'
  | branch es =>
      rw [hb] at hcreate
      obtain ⟨t', ht', hsame, hrefs⟩ := refChildren_spec hcreate
      rw [← hb] at hsame hrefs ⊢
      refine ⟨t', ?_, hfinish t' hsame hrefs⟩
      simp only [cloneNode, hn, Option.bind_eq_bind, Option.bind_some, hb]
      exact ht'

section Position

variable {t : PersistentTree K B} {others : Ptr → Nat} {l : Nat}

theorem Holds.bodyAt_node {c : Ctx K Value l} {s : Slot K Value (l + 1)}
    (h : Holds t others (c.plug s)) : t.bodyAt s.addr = some (content l s.entries) :=
  ((repRoot_plug c s).mp h.rep).1.1

theorem Holds.bodyAt_parent {f : Frame K Value l} {c : Ctx K Value (l + 1)}
    {s : Slot K Value (l + 1)} (h : Holds t others ((Ctx.up f c).plug s)) :
    t.bodyAt f.addr = some (.branch (f.pointersAt s.addr)) :=
  ((repRoot_plug (.up f c) s).mp h.rep).2.1

/-- The addresses seen from a position are pairwise different. -/
theorem Holds.nodup_at {c : Ctx K Value l} {s : Slot K Value (l + 1)}
    (h : Holds t others (c.plug s)) :
    (addrs (l + 1) s ++ (c.path ++ c.siblingAddrs)).Nodup :=
  (rootAddrs_plug c s).nodup_iff.mp h.nodup

theorem Holds.lt_next {r : Root K Value} (h : Holds t others r) {p : Nat}
    (hp : p ∈ rootAddrs r) : p < t.nodes.next := by
  obtain ⟨b, hb⟩ := Lib.Rep.exists_content h.rep hp
  exact lt_next_of_bodyAt hb

theorem Holds.lt_next_at {c : Ctx K Value l} {s : Slot K Value (l + 1)}
    (h : Holds t others (c.plug s)) {p : Nat}
    (hp : p ∈ addrs (l + 1) s ++ (c.path ++ c.siblingAddrs)) : p < t.nodes.next :=
  h.lt_next ((rootAddrs_plug c s).mem_iff.mpr hp)

theorem findChildNode_pointersAt {f : Frame K Value l} {p : Nat}
    (hp : ∀ e ∈ pointers f.left, e.2 ≠ p) :
    findChildNode (f.pointersAt p) p = some f.left.length := by
  unfold findChildNode Frame.pointersAt
  rw [List.findIdx?_append]
  have hnone : (pointers f.left).findIdx? (fun e => decide (e.2 = p)) = none := by
    rw [List.findIdx?_eq_none_iff]
    intro e he
    simpa using hp e he
  simp [hnone, List.findIdx?_cons]

/-- The parent finds the node where the frame has it. -/
theorem Holds.findChildNode {f : Frame K Value l} {c : Ctx K Value (l + 1)}
    {s : Slot K Value (l + 1)} (h : Holds t others ((Ctx.up f c).plug s)) :
    findChildNode (f.pointersAt s.addr) s.addr = some f.left.length := by
  refine findChildNode_pointersAt ?_
  intro e he heq
  have hnodup := h.nodup_at
  refine List.disjoint_of_nodup_append hnodup (a := s.addr) List.mem_cons_self ?_
  refine List.mem_append_right _ ?_
  simp only [Ctx.siblingAddrs, Frame.siblings, addrsOf_append, List.mem_append]
  exact Or.inl (Or.inl (heq ▸ mem_addrsOf_of_mem_pointers he))

/-- Every node below the root is held by its parent. -/
theorem Holds.refs_pos {f : Frame K Value l} {c : Ctx K Value (l + 1)}
    {s : Slot K Value (l + 1)} (h : Holds t others ((Ctx.up f c).plug s)) :
    0 < t.refsOf (.node s.addr) :=
  h.balanced.refs_pos h.bodyAt_parent (mem_ptrs_pointersAt f s.addr)

end Position

/-- A node is not held by nodes below it. -/
theorem count_ptrs_content {l : Nat} {es : List (K × Slot K Value l)} {p : Nat}
    (hp : p ∉ addrsOf es) : (ptrs (content l es)).count (.node p) = 0 := by
  rw [List.count_eq_zero]
  intro hmem
  cases l with
  | zero =>
      obtain ⟨e, -, he⟩ := List.mem_map.mp hmem
      cases he
  | succ l =>
      obtain ⟨e, he, rfl⟩ := node_mem_ptrs_branch.mp hmem
      exact hp (mem_addrsOf_of_mem_pointers he)

theorem modify_pointersAt {l : Nat} (f : Frame K Value l) (p : Nat) (g : K × Nat → K × Nat) :
    (f.pointersAt p).modify f.left.length g
      = pointers f.left ++ g (f.key, p) :: pointers f.right := by
  unfold Frame.pointersAt
  rw [← length_pointers f.left, modify_append_cons]

theorem count_ptrs_pointersAt {l : Nat} (f : Frame K Value l) (p : Nat) (x : Ptr) :
    (ptrs (.branch (f.pointersAt p) : Body K)).count x
      = (ptrs (.branch (pointers f.siblings) : Body K)).count x
        + if x = .node p then 1 else 0 := by
  simp only [ptrs, Frame.pointersAt, Frame.siblings, pointers_append, List.map_append,
    List.map_cons, List.count_append, List.count_cons, beq_iff_eq, eq_comm (b := x)]
  omega

/-- One step of `clone_path`: the parent is already this snapshot's own, and the node is replaced by
a clone in it. -/
theorem clone_step {t : PersistentTree K B} {others : Ptr → Nat} {l : Nat} {f : Frame K Value l}
    {c : Ctx K Value (l + 1)} {s : Slot K Value (l + 1)}
    (h : Holds t others ((Ctx.up f c).plug s)) :
    ∃ t₁ t₂ t₃, t.cloneNode s.addr = some t₁ ∧ t₁.unrefNode s.addr = some t₂ ∧
      (t₂.setBody f.addr (.branch (f.pointersAt t.nodes.next))).refNode t.nodes.next = some t₃ ∧
      Holds t₃ others ((Ctx.up f c).plug (.node t.nodes.next s.entries)) ∧
      (∀ p, p < t.nodes.next → p ≠ f.addr → t₃.bodyAt p = t.bodyAt p) ∧
      (∀ p ∈ f.addr :: c.path, t₃.refsOf (.node p) = t.refsOf (.node p)) ∧
      t₃.refsOf (.node t.nodes.next) = 1 ∧ t₃.nodes.next = t.nodes.next + 1 ∧
      t₃.root = t.root ∧
      ∀ x, t₃.refsOf x = t.refsOf x + (ptrs (content l s.entries)).count x
        - (if x = .node s.addr then 1 else 0) + if x = .node t.nodes.next then 1 else 0 := by
  have hbody := h.bodyAt_node
  have hparent := h.bodyAt_parent
  have hlt := lt_next_of_bodyAt hparent
  obtain ⟨t₁, ht₁, hbody₁, hrefs₁, hslots₁, hnext₁, hroot₁, hid₁⟩ :=
    cloneNode_spec hbody fun x hx => h.balanced.refs_pos hbody hx
  have hpos : 0 < t₁.refsOf (.node s.addr) := by
    have := h.refs_pos
    rw [hrefs₁]
    omega
  obtain ⟨t₂, ht₂, hsame₂, hrefs₂⟩ := unrefNode_spec hpos
  have hparent₂ : t₂.bodyAt f.addr = some (.branch (f.pointersAt s.addr)) := by
    rw [hsame₂.body, hbody₁, if_neg (by omega), hparent]
  have hclone : (t₂.setBody f.addr (.branch (f.pointersAt t.nodes.next))).bodyAt t.nodes.next
      = some (content l s.entries) := by
    rw [bodyAt_setBody_of_ne _ (by omega), hsame₂.body, hbody₁, if_pos rfl]
  obtain ⟨t₃, ht₃, hsame₃, hrefs₃⟩ := refNode_spec hclone
  have hbody₃ : ∀ p, t₃.bodyAt p = if p = t.nodes.next then some (content l s.entries)
      else if p = f.addr then some (.branch (f.pointersAt t.nodes.next)) else t.bodyAt p := by
    intro p
    rw [hsame₃.body, bodyAt_setBody, hsame₂.body, hbody₁]
    by_cases hp : p = f.addr
    · subst hp
      have hne : f.addr ≠ t.nodes.next := by omega
      simp [hne, hparent]
    · simp [hp]
  have hrefs : ∀ x, t₃.refsOf x = t.refsOf x + (ptrs (content l s.entries)).count x
      - (if x = .node s.addr then 1 else 0) + if x = .node t.nodes.next then 1 else 0 := by
    intro x
    rw [hrefs₃, refsOf_setBody, hrefs₂, hrefs₁]
  have hslots : ∀ x, t₃.slots x + (if x = .node s.addr then 1 else 0)
      = t.slots x + (ptrs (content l s.entries)).count x
        + if x = .node t.nodes.next then 1 else 0 := by
    intro x
    have hset := slots_setBody hparent₂ (.branch (f.pointersAt t.nodes.next)) x
    rw [hsame₂.slots, hslots₁, count_ptrs_pointersAt, count_ptrs_pointersAt] at hset
    rw [hsame₃.slots]
    omega
  have hroot₃ : t₃.root = t.root := by
    rw [hsame₃.root, root_setBody, hsame₂.root, hroot₁]
  -- Everything at this position has an old address, and only once.
  have hold : ∀ p ∈ addrsOf s.entries ++ (f.addr :: (c.path ++ (Ctx.up f c).siblingAddrs)),
      p < t.nodes.next ∧ p ≠ s.addr := by
    intro p hp
    have hmem : p ∈ addrs (l + 1) s ++ ((Ctx.up f c).path ++ (Ctx.up f c).siblingAddrs) :=
      List.mem_cons_of_mem _ hp
    refine ⟨h.lt_next_at hmem, ?_⟩
    rintro rfl
    exact (List.nodup_cons.mp h.nodup_at).1 hp
  have hnodup := (List.nodup_cons.mp h.nodup_at).2
  have hfresh : t.nodes.next ∉ addrsOf s.entries ++
      ((Ctx.up f c).path ++ (Ctx.up f c).siblingAddrs) :=
    fun hmem => absurd (hold _ hmem).1 (lt_irrefl _)
  have hsame : ∀ p, p < t.nodes.next → p ≠ f.addr → t₃.bodyAt p = t.bodyAt p := by
    intro p hp hne
    rw [hbody₃, if_neg (by omega), if_neg hne]
  have hpath : ∀ p ∈ f.addr :: c.path, t₃.refsOf (.node p) = t.refsOf (.node p) := by
    intro p hp
    have hmem : p ∈ (Ctx.up f c).path ++ (Ctx.up f c).siblingAddrs := List.mem_append_left _ hp
    obtain ⟨hlt', hne⟩ := hold p (List.mem_append_right _ hmem)
    have hcount : (ptrs (content l s.entries)).count (.node p) = 0 :=
      count_ptrs_content fun h' => List.disjoint_of_nodup_append hnodup h' hmem
    have hne' : p ≠ t.nodes.next := by omega
    simp [hrefs, hcount, hne, hne']
  refine ⟨t₁, t₂, t₃, ht₁, ht₂, ht₃, ⟨?_, ?_, ?_, ?_, ?_⟩, hsame, hpath, ?_, ?_, hroot₃, hrefs⟩
  · obtain ⟨hs, hbody', hsiblings, hupper⟩ := (repRoot_plug (.up f c) s).mp h.rep
    have hdisjoint : ∀ p ∈ addrsOf s.entries ++ (c.path ++ (Ctx.up f c).siblingAddrs),
        t₃.bodyAt p = t.bodyAt p := by
      intro p hp
      refine hsame p (hold p ?_).1 ?_
      · rcases List.mem_append.mp hp with hp | hp
        · exact List.mem_append_left _ hp
        · exact List.mem_append_right _ (List.mem_cons_of_mem _ hp)
      · rintro rfl
        have hswap : (f.addr :: (addrsOf s.entries ++ (c.path ++ (Ctx.up f c).siblingAddrs))).Nodup :=
          List.perm_middle.nodup_iff.mp hnodup
        exact (List.nodup_cons.mp hswap).1 hp
    refine (repRoot_plug (.up f c) (.node t.nodes.next s.entries)).mpr ⟨⟨?_, ?_⟩, ?_, ?_, ?_⟩
    · rw [Slot.addr_node, hbody₃, if_pos rfl, Slot.entries_node]
    · have hentries : RepOf t.bodyAt s.entries := hs.2
      exact hentries.congr fun p hp => hdisjoint p (List.mem_append_left _ hp)
    · rw [hbody₃, if_neg (by omega), if_pos rfl, Slot.addr_node]
    · refine hsiblings.congr fun p hp => hdisjoint p ?_
      exact List.mem_append_right _ (List.mem_append_right _ (List.mem_append_left _ hp))
    · refine hupper.congr fun p hp => hdisjoint p (List.mem_append_right _ ?_)
      rcases List.mem_append.mp hp with hp | hp
      · exact List.mem_append_left _ hp
      · exact List.mem_append_right _ (List.mem_append_right _ hp)
  · refine (rootAddrs_plug (.up f c) (.node t.nodes.next s.entries)).nodup_iff.mpr ?_
    exact List.nodup_cons.mpr ⟨hfresh, hnodup⟩
  · rw [hroot₃, h.root]
    have hlast := getLast_path (.up f c) s
    have hlast' := getLast_path (.up f c) (Slot.node t.nodes.next s.entries)
    simp only [Ctx.path, List.getLast?_cons_cons] at hlast hlast'
    exact Option.some.inj (hlast.symm.trans hlast')
  · intro x
    have hbal := h.balanced x
    have hs := hslots x
    rw [hrefs, hroot₃, hbal]
    split_ifs at hs ⊢ <;> omega
  · rw [hroot₃]
    have hmem : t.root ∈ f.addr :: c.path := by
      rw [h.root]
      have hlast := getLast_path (.up f c) s
      simp only [Ctx.path, List.getLast?_cons_cons] at hlast
      exact List.mem_of_getLast? hlast
    rw [hpath _ hmem]
    exact h.owned
  · have hcount : (ptrs (content l s.entries)).count (.node t.nodes.next) = 0 :=
      count_ptrs_content fun h' => hfresh (List.mem_append_left _ h')
    have hne : t.nodes.next ≠ s.addr := by
      have := lt_next_of_bodyAt hbody
      omega
    have hzero : t.refsOf (.node t.nodes.next) = 0 := by simp [refsOf]
    simp [hrefs, hcount, hne, hzero]
  · rw [hsame₃.next, next_setBody, hsame₂.next, hnext₁]

/-- The path of a tree ends in its root. -/
theorem Holds.getLast_path {t : PersistentTree K B} {others : Ptr → Nat} {l : Nat}
    {c : Ctx K Value l} {s : Slot K Value (l + 1)} (h : Holds t others (c.plug s)) :
    (s.addr :: c.path).getLast? = some t.root := by
  rw [Lib.getLast_path, h.root]

def ChildOf (t : PersistentTree K B) (p q : Nat) : Prop :=
  ∃ b, t.bodyAt q = some b ∧ Ptr.node p ∈ ptrs b

def topNode (path : List Nat) : Option Nat := path.dropLast.getLast?

structure Cloned (t t' : PersistentTree K B) (path path' : List Nat) : Prop where
  same : ∀ q, q < t.nodes.next → q ≠ t.root → t'.bodyAt q = t.bodyAt q
  fresh : ∀ q ∈ path'.dropLast, t.nodes.next ≤ q
  new : ∀ q, t.nodes.next ≤ q → q < t'.nodes.next → q ∈ path'.dropLast
  root : t'.root = t.root
  next : t.nodes.next ≤ t'.nodes.next
  frame : ∀ p, p < t.nodes.next → p ∉ path.dropLast → (∀ q ∈ path.dropLast, ¬ t.ChildOf p q) →
    t'.refsOf (.node p) = t.refsOf (.node p)
  le : ∀ p, p ∉ path.dropLast → t.refsOf (.node p) ≤ t'.refsOf (.node p)
  kept : (∀ p, topNode path = some p → 1 < t.refsOf (.node p)) →
    ∀ p ∈ path.dropLast, 0 < t'.refsOf (.node p)

theorem Holds.not_mem_path {t : PersistentTree K B} {others : Ptr → Nat} {l : Nat}
    {c : Ctx K Value l} {s : Slot K Value (l + 1)} (h : Holds t others (c.plug s)) :
    s.addr ∉ c.path := by
  intro hmem
  exact (List.nodup_cons.mp h.nodup_at).1 (List.mem_append_right _ (List.mem_append_left _ hmem))

/-- One more node is cloned below a path that has been. -/
theorem Cloned.cons {t t₁ t₂ : PersistentTree K B} {others : Ptr → Nat} {l : Nat}
    {f : Frame K Value l} {c : Ctx K Value (l + 1)} {s : Slot K Value (l + 1)} {p₁ : Nat}
    {ps₁ : List Nat} (h : Holds t others ((Ctx.up f c).plug s))
    (hcloned : Cloned t t₁ (f.addr :: c.path) (p₁ :: ps₁)) (hlen : ps₁.length = c.path.length)
    (h₁ : Holds t₁ others ((Ctx.up { f with addr := p₁ } (c.withPath ps₁)).plug s))
    (hsame : ∀ p, p < t₁.nodes.next → p ≠ p₁ → t₂.bodyAt p = t₁.bodyAt p)
    (hnext : t₂.nodes.next = t₁.nodes.next + 1) (hroot : t₂.root = t₁.root)
    (hrefs : ∀ x, t₂.refsOf x = t₁.refsOf x + (ptrs (content l s.entries)).count x
      - (if x = .node s.addr then 1 else 0) + if x = .node t₁.nodes.next then 1 else 0) :
    Cloned t t₂ (s.addr :: f.addr :: c.path) (t₁.nodes.next :: p₁ :: ps₁) := by
  have hnext₁ := hcloned.next
  have hmem : s.addr ∉ f.addr :: c.path := h.not_mem_path
  have hlast := h₁.getLast_path
  rw [Ctx.path, c.path_withPath hlen] at hlast
  have hp₁ : ∀ q, q < t.nodes.next → q ≠ t.root → q ≠ p₁ := by
    intro q hq hne
    cases ps₁ with
    | nil =>
        simp only [List.getLast?_cons_cons, List.getLast?_singleton] at hlast
        rw [Option.some.inj hlast, hcloned.root]
        exact hne
    | cons p₂ ps₂ =>
        have := hcloned.fresh p₁ (by simp)
        omega
  have hle : ∀ p, p ≠ s.addr → t₁.refsOf (.node p) ≤ t₂.refsOf (.node p) := by
    intro p hne
    rw [hrefs, if_neg (by simpa using hne)]
    split <;> omega
  refine ⟨?_, ?_, ?_, hroot.trans hcloned.root, by omega, ?_, ?_, ?_⟩
  · intro q hq hne
    rw [hsame q (by omega) (hp₁ q hq hne), hcloned.same q hq hne]
  · intro q hq
    rw [List.dropLast_cons_of_ne_nil (by simp)] at hq
    rcases List.mem_cons.mp hq with rfl | hq
    · exact hnext₁
    · exact hcloned.fresh q hq
  · intro q hq hlt
    rw [List.dropLast_cons_of_ne_nil (by simp)]
    by_cases heq : q = t₁.nodes.next
    · exact List.mem_cons.mpr (Or.inl heq)
    · exact List.mem_cons_of_mem _ (hcloned.new q hq (by omega))
  · intro p hp hnot hchild
    change p ∉ s.addr :: (f.addr :: c.path).dropLast at hnot
    change ∀ q ∈ s.addr :: (f.addr :: c.path).dropLast, _ at hchild
    rw [List.mem_cons, not_or] at hnot
    obtain ⟨hne, hnot⟩ := hnot
    have hzero : (ptrs (content l s.entries)).count (.node p) = 0 := by
      rw [List.count_eq_zero]
      exact fun hptr => hchild s.addr List.mem_cons_self ⟨_, h.bodyAt_node, hptr⟩
    have hnew : p ≠ t₁.nodes.next := by omega
    rw [hrefs, hzero, if_neg (by simpa using hne), if_neg (by simpa using hnew),
      hcloned.frame p hp hnot fun q hq => hchild q (List.mem_cons_of_mem _ hq)]
    omega
  · intro p hnot
    change p ∉ s.addr :: (f.addr :: c.path).dropLast at hnot
    rw [List.mem_cons, not_or] at hnot
    obtain ⟨hne, hnot⟩ := hnot
    exact le_trans (hcloned.le p hnot) (hle p hne)
  · intro htop p hp
    change p ∈ s.addr :: (f.addr :: c.path).dropLast at hp
    -- Below the first level the old parent still holds the node, and so does its clone.
    have htwo : 1 < t₁.refsOf (.node s.addr) := by
      cases hc : c.path with
      | nil =>
          have hone := htop s.addr (by simp [topNode, hc])
          exact lt_of_lt_of_le hone (hcloned.le _ (by simp [hc]))
      | cons q qs =>
          have hparent := h.bodyAt_parent
          have hne : f.addr ≠ t.root := by
            intro heq
            have hlast := h.getLast_path
            rw [Ctx.path, hc, List.getLast?_cons_cons, List.getLast?_cons_cons] at hlast
            have hroot : t.root ∈ c.path := by
              rw [hc]
              exact List.mem_of_getLast? hlast
            have hnot : f.addr ∉ c.path :=
              Holds.not_mem_path (c := c) (s := f.plug s) h
            exact hnot (heq ▸ hroot)
          have hlt := lt_next_of_bodyAt hparent
          have hold : t₁.bodyAt f.addr = some (.branch (f.pointersAt s.addr)) := by
            rw [hcloned.same _ hlt hne, hparent]
          have hslots := two_le_slots hold h₁.bodyAt_parent (hp₁ _ hlt hne)
            (mem_ptrs_pointersAt f s.addr) (mem_ptrs_pointersAt _ s.addr)
          have hbal := h₁.balanced (.node s.addr)
          omega
    rcases List.mem_cons.mp hp with rfl | hp
    · rw [hrefs, if_pos rfl]
      split <;> omega
    · have hne : p ≠ s.addr := by
        rintro rfl
        exact hmem (List.mem_of_mem_dropLast hp)
      refine lt_of_lt_of_le (hcloned.kept ?_ p hp) (hle p hne)
      intro q hq
      refine htop q ?_
      cases hc : c.path with
      | nil => simp [topNode, hc] at hq
      | cons r rs =>
          rw [topNode, hc] at hq
          rw [topNode, List.dropLast_cons_of_ne_nil (by simp), List.getLast?_cons_of_ne_nil]
          · exact hq
          · simp

/-- `clone_path` gives a path of new nodes up to the root. -/
theorem clonePath_spec {t : PersistentTree K B} {others : Ptr → Nat} {l : Nat}
    {c : Ctx K Value l} {s : Slot K Value (l + 1)} (h : Holds t others (c.plug s)) :
    ∃ t' p ps, t.clonePath (s.addr :: c.path) = some (t', p :: ps) ∧
      ps.length = c.path.length ∧
      Holds t' others ((c.withPath ps).plug (.node p s.entries)) ∧ Owned t' (p :: ps) ∧
      Cloned t t' (s.addr :: c.path) (p :: ps) := by
  induction c with
  | top =>
      refine ⟨t, s.addr, [], rfl, rfl, h, ?_, ⟨fun _ _ _ => rfl, nofun, ?_, rfl, le_rfl,
        fun _ _ _ _ => rfl, fun _ _ => le_rfl, nofun⟩⟩
      · intro p hp
        obtain rfl := List.mem_singleton.mp hp
        have howned := h.owned
        rw [h.root] at howned
        exact howned
      · intro q hle hlt
        omega
  | up f c ih =>
      obtain ⟨t₁, p₁, ps₁, hrun₁, hlen₁, h₁, howned₁, hcloned⟩ := ih h
      have h₁' : Holds t₁ others
          ((Ctx.up { f with addr := p₁ } (c.withPath ps₁)).plug s) := h₁
      obtain ⟨t₂, t₃, t₄, hclone, hunref, href, h₄, hsame₄, hpath₄, hnew₄, hnext₄, hroot₄, hrefs₄⟩ :=
        clone_step h₁'
      have hpath : (c.withPath ps₁).path = ps₁ := c.path_withPath hlen₁
      rw [hpath] at hpath₄
      simp only [Frame.addr_plug] at hrun₁ hcloned
      refine ⟨t₄, t₁.nodes.next, p₁ :: ps₁, ?_, ?_, h₄, ?_, ?_⟩
      · have hparent := h₁'.bodyAt_parent
        have hfind := h₁'.findChildNode
        simp only [Ctx.path, clonePath, hrun₁, Option.bind_eq_bind, Option.bind_some,
          List.head?_cons, branchEntries_of_bodyAt hparent, hfind, hclone, hunref]
        rw [modify_pointersAt]
        simp only [Frame.pointersAt] at href
        rw [href]
        rfl
      · simp [Ctx.path, hlen₁]
      · intro q hq
        rcases List.mem_cons.mp hq with rfl | hq
        · exact hnew₄
        · rw [hpath₄ q hq]
          exact howned₁ q hq
      · exact hcloned.cons h hlen₁ h₁' hsame₄ hnext₄ hroot₄ hrefs₄

/-- What is left to say of the nodes of a path that is not cloned: each has the one reference of
its parent. -/
theorem Holds.owned_of_not_shared {t : PersistentTree K B} {others : Ptr → Nat} {l : Nat}
    {c : Ctx K Value l} {s : Slot K Value (l + 1)} (h : Holds t others (c.plug s))
    (hle : ∀ p ∈ (s.addr :: c.path).dropLast, t.refsOf (.node p) ≤ 1) :
    Owned t (s.addr :: c.path) := by
  induction c with
  | top =>
      intro p hp
      obtain rfl := List.mem_singleton.mp hp
      have howned := h.owned
      rw [h.root] at howned
      exact howned
  | up f c ih =>
      simp only [Ctx.path] at hle ⊢
      rw [List.dropLast_cons_of_ne_nil (by simp)] at hle
      intro p hp
      rcases List.mem_cons.mp hp with rfl | hp
      · have hpos := h.refs_pos
        have := hle s.addr List.mem_cons_self
        omega
      · exact ih h (fun q hq => hle q (List.mem_cons_of_mem _ hq)) p hp

/-- The tree seen from its root. -/
theorem Holds.whole {t : PersistentTree K B} {others : Ptr → Nat} {r : Root K Value}
    (h : Holds t others r) : Holds t others ((Ctx.top : Ctx K Value r.1).plug r.2) := h

theorem Holds.owned_root {t : PersistentTree K B} {others : Ptr → Nat} {r : Root K Value}
    (h : Holds t others r) : Owned t (r.2.addr :: (Ctx.top : Ctx K Value r.1).path) := by
  intro p hp
  obtain rfl := List.mem_singleton.mp hp
  have howned := h.owned
  rw [h.root] at howned
  exact howned

/-- Below the root every node of a path has a parent. -/
theorem Holds.childOf_of_mem {t : PersistentTree K B} {others : Ptr → Nat} {l : Nat}
    {c : Ctx K Value l} {s : Slot K Value (l + 1)} (h : Holds t others (c.plug s)) {p : Nat}
    (hp : p ∈ (s.addr :: c.path).dropLast) : ∃ q, t.ChildOf p q := by
  induction c with
  | top => cases hp
  | up f c ih =>
      rcases List.mem_cons.mp hp with rfl | hp
      · exact ⟨f.addr, _, h.bodyAt_parent, mem_ptrs_pointersAt f s.addr⟩
      · exact ih h hp

/-- The nodes of an owned path have their parents on it. -/
theorem Holds.mem_of_childOf {t : PersistentTree K B} {others : Ptr → Nat} {l : Nat}
    {c : Ctx K Value l} {s : Slot K Value (l + 1)} (h : Holds t others (c.plug s))
    (howned : Owned t (s.addr :: c.path)) {p q : Nat} (hp : p ∈ s.addr :: c.path)
    (hchild : t.ChildOf p q) : q ∈ s.addr :: c.path := by
  obtain ⟨b, hb, hptr⟩ := hchild
  have hslots := count_le_slots hb (.node p)
  have hpos := List.count_pos_iff.mpr hptr
  have hone := howned p hp
  have hbal := h.balanced (.node p)
  induction c with
  | top =>
      have hroot : t.root = p := by
        rw [List.mem_singleton.mp hp]
        exact h.root
      rw [withRoot, hroot, if_pos rfl] at hbal
      omega
  | up f c ih =>
      rcases List.mem_cons.mp hp with rfl | hp
      · by_cases hne : q = f.addr
        · rw [hne]
          exact List.mem_cons_of_mem _ List.mem_cons_self
        · have htwo := two_le_slots hb h.bodyAt_parent hne hptr (mem_ptrs_pointersAt f s.addr)
          unfold withRoot at hbal
          omega
      · exact List.mem_cons_of_mem _ (ih h (fun p hp => howned p (List.mem_cons_of_mem _ hp)) hp)

/-- Cloning a path leaves alone what is beside it. -/
theorem Cloned.owned {t t' : PersistentTree K B} {others : Ptr → Nat} {l : Nat}
    {c : Ctx K Value l} {s : Slot K Value (l + 1)} {path path' : List Nat}
    (hcloned : Cloned t t' path path') (h : Holds t others (c.plug s))
    (howned : Owned t (s.addr :: c.path)) (hdisjoint : ∀ q ∈ path.dropLast, q ∉ s.addr :: c.path) :
    Owned t' (s.addr :: c.path) := by
  intro p hp
  have hone := howned p hp
  obtain ⟨b, hb⟩ := exists_body_of_refs (by omega : t.refsOf (.node p) ≠ 0)
  rw [hcloned.frame p (lt_next_of_bodyAt hb) (fun hmem => hdisjoint p hmem hp) ?_, hone]
  intro q hq hchild
  exact hdisjoint q hq (h.mem_of_childOf howned hp hchild)

theorem mapM_read {t : PersistentTree K B} {path : List Nat}
    (hlive : ∀ p ∈ path, ∃ b, t.bodyAt p = some b) :
    ∃ nodes, path.mapM t.nodes.read = some nodes ∧
      (nodes.any (fun n => decide (1 < n.refs)) = true ↔
        ∃ p ∈ path, 1 < t.refsOf (.node p)) := by
  induction path with
  | nil => exact ⟨[], rfl, by simp⟩
  | cons p path ih =>
      obtain ⟨b, hb⟩ := hlive p List.mem_cons_self
      obtain ⟨n, hn, -⟩ := read_of_bodyAt hb
      obtain ⟨nodes, hnodes, hiff⟩ := ih fun q hq => hlive q (List.mem_cons_of_mem _ hq)
      refine ⟨n :: nodes, ?_, ?_⟩
      · simp [List.mapM_cons, hn, hnodes]
      · have hrefs : t.refsOf (.node p) = n.refs := by simp [refsOf, hn]
        have hcast : 1 < (n.refs : Int) ↔ 1 < n.refs := by omega
        simp only [List.any_cons, Bool.or_eq_true, hiff, List.mem_cons, exists_eq_or_imp, hrefs,
          decide_eq_true_eq, hcast]

/-- `update_path` keeps the tree, gives a path that is owned, and leaves the other trees alone. -/
theorem updatePath_spec {t : PersistentTree K B} {others : Ptr → Nat} {l : Nat}
    {c : Ctx K Value l} {s : Slot K Value (l + 1)} (h : Holds t others (c.plug s)) :
    ∃ t' p ps, t.updatePath (s.addr :: c.path) = some (t', p :: ps) ∧
      ps.length = c.path.length ∧
      Holds t' others ((c.withPath ps).plug (.node p s.entries)) ∧ Owned t' (p :: ps) ∧
      Keeps others t t' ∧
      ((t' = t ∧ p :: ps = s.addr :: c.path) ∨
        (∃ q ∈ (s.addr :: c.path).dropLast, 1 < t.refsOf (.node q)) ∧
        Cloned t t' (s.addr :: c.path) (p :: ps)) := by
  have hmem : ∀ p ∈ s.addr :: c.path, p ∈ rootAddrs (c.plug s) := by
    intro p hp
    refine (rootAddrs_plug c s).mem_iff.mpr ?_
    rw [addrs_node]
    rcases List.mem_cons.mp hp with rfl | hp
    · exact List.mem_append_left _ List.mem_cons_self
    · exact List.mem_append_right _ (List.mem_append_left _ hp)
  have hlive : ∀ p ∈ (s.addr :: c.path).dropLast, ∃ b, t.bodyAt p = some b :=
    fun p hp => Lib.Rep.exists_content h.rep (hmem p (List.mem_of_mem_dropLast hp))
  obtain ⟨nodes, hnodes, hiff⟩ := mapM_read hlive
  unfold updatePath
  simp only [hnodes, Option.bind_eq_bind, Option.bind_some]
  split
  · rename_i hshared
    obtain ⟨t', p, ps, hrun, hlen, h', howned, hcloned⟩ := clonePath_spec h
    refine ⟨t', p, ps, hrun, hlen, h', howned, ⟨?_, ?_⟩, Or.inr ⟨hiff.mp hshared, hcloned⟩⟩
    · intro l' s' hext hrep
      refine h.whole.rep_kept h.owned_root ?_ (h.whole.not_mem_of_ext h.owned_root hext) hrep
      intro q hq hne
      refine hcloned.same q hq ?_
      rintro rfl
      exact hne (List.mem_singleton.mpr h.root)
    · intro q hext hone
      have hbal := h.balanced (.node q)
      have hslots : t.slots (.node q) = 0 := by
        unfold withRoot at hbal
        omega
      have hchild : ∀ r, ¬ t.ChildOf q r := by
        rintro r ⟨b, hb, hptr⟩
        have := count_le_slots hb (.node q)
        have := List.count_pos_iff.mpr hptr
        omega
      obtain ⟨b, hb⟩ := exists_body_of_refs (by omega : t.refsOf (.node q) ≠ 0)
      rw [hcloned.frame q (lt_next_of_bodyAt hb) ?_ fun r _ => hchild r, hone]
      intro hmem
      obtain ⟨r, hr⟩ := h.childOf_of_mem hmem
      exact hchild r hr
  · rename_i hshared
    refine ⟨t, s.addr, c.path, rfl, rfl, ?_, ?_, Keeps.refl others t, Or.inl ⟨rfl, rfl⟩⟩
    · rw [Ctx.withPath_path, Slot.node_eta]
      exact h
    · refine h.owned_of_not_shared ?_
      intro p hp
      by_contra hlt
      exact hshared (hiff.mpr ⟨p, hp, by omega⟩)

end Memoria.PersistentTree

import Memoria.Proof.TreeLeaf

/-!
# Deleting a tree

A tree is deleted from its root: a node gives up one reference, and only the last one takes the node
with it and a reference from everything it holds. In between there are nodes that have no reference
any more and still stand in the heap; what they have yet to give up is held from outside for the
while.
-/

namespace Memoria.PersistentTree

open Lib

variable {K B : Type} {t t' t'' : PersistentTree K B} {ext : Ptr → Nat} {pending : List Nat}

def holding (ext : Ptr → Nat) (held : List Ptr) : Ptr → Nat := fun x => ext x + held.count x

theorem holding_nil (ext : Ptr → Nat) : holding ext [] = ext := by
  funext x
  simp [holding]

theorem holding_cons (ext : Ptr → Nat) (y : Ptr) (held : List Ptr) :
    holding ext (y :: held) = holding (holding ext held) [y] := by
  funext x
  simp only [holding, List.count_cons, List.count_nil]
  omega

theorem holding_cons_apply (y : Ptr) (held : List Ptr) (x : Ptr) :
    holding ext (y :: held) x = holding ext held x + if x = y then 1 else 0 := by
  simp only [holding, List.count_cons, beq_iff_eq, eq_comm (a := y)]
  omega

def slotsOutside (t : PersistentTree K B) (pending : List Nat) (x : Ptr) : Nat :=
  t.nodes.sum fun p n => if p ∈ pending then 0 else (ptrs n.body).count x

structure Releasing (t : PersistentTree K B) (pending : List Nat) (ext : Ptr → Nat) : Prop where
  counts : ∀ x, t.refsOf x = t.slotsOutside pending x + ext x
  dead : ∀ p ∈ pending, t.refsOf (.node p) = 0

structure Released (t t' : PersistentTree K B) : Prop where
  body : ∀ p, 0 < t'.refsOf (.node p) → t'.bodyAt p = t.bodyAt p
  le : ∀ x, t'.refsOf x ≤ t.refsOf x
  next : t'.nodes.next = t.nodes.next

theorem Released.refl (t : PersistentTree K B) : Released t t :=
  ⟨fun _ _ => rfl, fun _ => le_rfl, rfl⟩

theorem Released.trans (h : Released t t') (h' : Released t' t'') : Released t t'' := by
  refine ⟨?_, fun x => (h'.le x).trans (h.le x), h'.next.trans h.next⟩
  intro p hp
  rw [h'.body p hp, h.body p (lt_of_lt_of_le hp (h'.le _))]

theorem slotsOutside_nil (t : PersistentTree K B) (x : Ptr) : t.slotsOutside [] x = t.slots x := by
  simp only [slotsOutside, slots, List.not_mem_nil, if_false]

/-- Between deletions nothing is out of the ordinary. -/
theorem releasing_nil : Releasing t [] ext ↔ Balanced t ext := by
  constructor
  · intro h x
    rw [h.counts, slotsOutside_nil]
  · intro h
    refine ⟨fun x => ?_, fun p hp => ?_⟩
    · rw [h x, slotsOutside_nil]
    · cases hp

theorem SameBodies.slotsOutside (h : SameBodies t t') (x : Ptr) :
    t'.slotsOutside pending x = t.slotsOutside pending x := by
  refine Heap.sum_congr h.next ?_
  intro p
  have hbody := h.body p
  unfold bodyAt at hbody
  cases hn : t.nodes.read p <;> cases hn' : t'.nodes.read p <;> simp_all

theorem SameBodies.released (h : SameBodies t t') (hle : ∀ x, t'.refsOf x ≤ t.refsOf x) :
    Released t t' :=
  ⟨fun p _ => h.body p, hle, h.next⟩

/-- The slots of one node outside the deletion are part of all slots outside. -/
theorem count_le_slotsOutside {p : Nat} {b : Body K} (hbody : t.bodyAt p = some b)
    (hp : p ∉ pending) (x : Ptr) : (ptrs b).count x ≤ t.slotsOutside pending x := by
  obtain ⟨n, hn, rfl⟩ := read_of_bodyAt hbody
  have hle := Heap.le_sum hn fun p n => if p ∈ pending then 0 else (ptrs n.body).count x
  rwa [if_neg hp] at hle

/-- A tree of which somebody still holds the root is there as a whole. -/
theorem Released.rep (h : Released t t') (hrel : Releasing t' pending ext) {l : Nat}
    {s : Slot K Value (l + 1)} (hrep : Rep t.bodyAt (l + 1) s)
    (hpos : 0 < t'.refsOf (.node s.addr)) : Rep t'.bodyAt (l + 1) s := by
  induction l with
  | zero => exact ⟨(h.body _ hpos).trans hrep.1, fun _ _ => trivial⟩
  | succ l ih =>
      have hbody : t'.bodyAt s.addr = some (content (l + 1) s.entries) :=
        (h.body _ hpos).trans hrep.1
      refine ⟨hbody, fun e he => ih (hrep.2 e he) ?_⟩
      have hnot : s.addr ∉ pending := by
        intro hmem
        have hzero := hrel.dead _ hmem
        omega
      have hle := count_le_slotsOutside hbody hnot (.node e.2.addr)
      have hchild : Ptr.node e.2.addr ∈ ptrs (content (l + 1) s.entries) :=
        node_mem_ptrs_branch.mpr ⟨(e.1, e.2.addr), List.mem_map_of_mem he, rfl⟩
      have hcount := List.count_pos_iff.mpr hchild
      have hrefs := hrel.counts (.node e.2.addr)
      omega

/-- A node without references is set aside, and its slots are held instead. -/
theorem Releasing.setAside {p : Nat} {b : Body K} (h : Releasing t pending ext)
    (hbody : t.bodyAt p = some b) (hp : p ∉ pending) (hrefs : t.refsOf (.node p) = 0) :
    Releasing t (p :: pending) (holding ext (ptrs b)) := by
  refine ⟨?_, ?_⟩
  · intro x
    obtain ⟨n, hn, rfl⟩ := read_of_bodyAt hbody
    have hsplit : t.slotsOutside (p :: pending) x + (ptrs n.body).count x
        = t.slotsOutside pending x := by
      have hout := Heap.sum_free hn fun q n => if q ∈ pending then 0 else (ptrs n.body).count x
      have hin := Heap.sum_free hn fun q n =>
        if q ∈ p :: pending then 0 else (ptrs n.body).count x
      rw [if_neg hp] at hout
      rw [if_pos List.mem_cons_self] at hin
      have hsame : ((t.nodes.free p).sum fun q n =>
          if q ∈ p :: pending then 0 else (ptrs n.body).count x)
          = (t.nodes.free p).sum fun q n => if q ∈ pending then 0 else (ptrs n.body).count x := by
        unfold Heap.sum
        refine Finset.sum_congr rfl fun q _ => ?_
        by_cases hq : q = p
        · rw [hq, Heap.read_free_self]
          rfl
        · simp [hq]
      unfold slotsOutside
      omega
    have hcounts := h.counts x
    unfold holding
    omega
  · intro q hq
    rcases List.mem_cons.mp hq with rfl | hq
    · exact hrefs
    · exact h.dead q hq

/-- A node that has given up everything goes. -/
theorem Releasing.removeNode {p : Nat} (h : Releasing t (p :: pending) ext) :
    Releasing (t.removeNode p) pending ext := by
  have hzero := h.dead p List.mem_cons_self
  have hrefs : ∀ x, (t.removeNode p).refsOf x = t.refsOf x := by
    intro x
    rw [refsOf_removeNode]
    split
    · rename_i heq
      rw [heq, hzero]
    · rfl
  refine ⟨?_, ?_⟩
  · intro x
    have hslots : (t.removeNode p).slotsOutside pending x = t.slotsOutside (p :: pending) x := by
      unfold slotsOutside Heap.sum
      refine Finset.sum_congr rfl fun q _ => ?_
      simp only [PersistentTree.removeNode, Heap.read_free]
      by_cases hq : q = p
      · subst hq
        cases t.nodes.read q <;> simp
      · simp [hq]
    rw [hrefs, hslots, h.counts]
  · intro q hq
    rw [hrefs]
    exact h.dead q (List.mem_cons_of_mem _ hq)

theorem released_removeNode {p : Nat} (hrefs : t.refsOf (.node p) = 0) :
    Released t (t.removeNode p) := by
  refine ⟨?_, ?_, rfl⟩
  · intro q hq
    rw [refsOf_removeNode] at hq
    rw [bodyAt_removeNode]
    by_cases heq : q = p
    · rw [heq, if_pos rfl] at hq
      exact absurd hq (lt_irrefl _)
    · rw [if_neg heq]
  · intro x
    rw [refsOf_removeNode]
    split
    · rename_i heq
      rw [heq, hrefs]
    · exact le_rfl

/-- One reference less is held and counted. -/
theorem Releasing.step {y : Ptr} (h : Releasing t pending (holding ext [y]))
    (hsame : SameBodies t t') (hrefs : ∀ x, t'.refsOf x = t.refsOf x - if x = y then 1 else 0) :
    Releasing t' pending ext := by
  refine ⟨?_, ?_⟩
  · intro x
    have hcounts := h.counts x
    rw [holding_cons_apply, holding_nil] at hcounts
    rw [hrefs, hsame.slotsOutside]
    split_ifs at hcounts ⊢ <;> omega
  · intro p hp
    have hzero := h.dead p hp
    have hcounts := h.counts (.node p)
    rw [holding_cons_apply, holding_nil] at hcounts
    rw [hrefs]
    split_ifs at hcounts ⊢ <;> omega

theorem Releasing.refs_pos {y : Ptr} {held : List Ptr}
    (h : Releasing t pending (holding ext (y :: held))) : 0 < t.refsOf y := by
  have hcounts := h.counts y
  rw [holding_cons_apply, if_pos rfl] at hcounts
  omega

/-- The references of a leaf are given back one by one. -/
theorem unrefBlocks_spec {es : List (K × Value)}
    (h : Releasing t pending (holding ext (ptrs (.leaf es : Body K)))) :
    ∃ t', t.unrefBlocks es = some t' ∧ Releasing t' pending ext ∧ Released t t' := by
  induction es generalizing t with
  | nil =>
      change Releasing t pending (holding ext []) at h
      rw [holding_nil] at h
      exact ⟨t, rfl, h, .refl t⟩
  | cons e es ih =>
      change Releasing t pending
        (holding ext (.block e.2.blockPtr :: ptrs (.leaf es : Body K))) at h
      obtain ⟨t₁, ht₁, hsame, hrefs⟩ := unrefBlock_spec h.refs_pos.ne'
      rw [holding_cons] at h
      obtain ⟨t₂, ht₂, h₂, hreleased⟩ := ih (h.step hsame hrefs)
      refine ⟨t₂, ?_, h₂, (hsame.released fun x => ?_).trans hreleased⟩
      · simp only [unrefBlocks, List.foldlM_cons, ht₁, Option.bind_eq_bind, Option.bind_some]
        exact ht₂
      · rw [hrefs]
        split <;> omega

/-- The children of a node, one after the other. -/
theorem deleteNodes_spec {fuel l : Nat}
    (hnode : ∀ {t : PersistentTree K B} {pending : List Nat} {ext : Ptr → Nat}
      {s : Slot K Value (l + 1)}, Rep t.bodyAt (l + 1) s →
      Releasing t pending (holding ext [.node s.addr]) →
      ∃ t', t.deleteNode fuel s.addr = some t' ∧ Releasing t' pending ext ∧ Released t t')
    {es : List (K × Slot K Value (l + 1))} (hrep : RepOf t.bodyAt es)
    (h : Releasing t pending (holding ext (ptrs (.branch (pointers es) : Body K)))) :
    ∃ t', (pointers es).foldlM (fun t e => t.deleteNode fuel e.2) t = some t' ∧
      Releasing t' pending ext ∧ Released t t' := by
  induction es generalizing t with
  | nil =>
      change Releasing t pending (holding ext []) at h
      rw [holding_nil] at h
      exact ⟨t, rfl, h, .refl t⟩
  | cons e es ih =>
      change Releasing t pending
        (holding ext (.node e.2.addr :: ptrs (.branch (pointers es) : Body K))) at h
      obtain ⟨he, hes⟩ := repOf_cons.mp hrep
      rw [holding_cons] at h
      obtain ⟨t₁, ht₁, h₁, hreleased₁⟩ := hnode he h
      -- The other children still have the reference of this node.
      have hes₁ : RepOf t₁.bodyAt es := by
        intro d hd
        refine hreleased₁.rep h₁ (hes d hd) ?_
        have hmem : Ptr.node d.2.addr ∈ ptrs (.branch (pointers es) : Body K) :=
          node_mem_ptrs_branch.mpr ⟨(d.1, d.2.addr), List.mem_map_of_mem hd, rfl⟩
        have hcount := List.count_pos_iff.mpr hmem
        have hcounts := h₁.counts (.node d.2.addr)
        unfold holding at hcounts
        omega
      obtain ⟨t₂, ht₂, h₂, hreleased₂⟩ := ih hes₁ h₁
      refine ⟨t₂, ?_, h₂, hreleased₁.trans hreleased₂⟩
      simp only [pointers_cons, List.foldlM_cons, ht₁, Option.bind_eq_bind, Option.bind_some]
      exact ht₂

/-- `delete_node` gives up the reference to the node. -/
theorem deleteNode_spec {fuel l : Nat} {s : Slot K Value (l + 1)} (hlt : l < fuel)
    (hrep : Rep t.bodyAt (l + 1) s) (h : Releasing t pending (holding ext [.node s.addr])) :
    ∃ t', t.deleteNode fuel s.addr = some t' ∧ Releasing t' pending ext ∧ Released t t' := by
  induction fuel generalizing t pending ext l with
  | zero => omega
  | succ fuel ih =>
      obtain ⟨n, hn, hbody⟩ := read_of_bodyAt hrep.1
      have hrefsOf : t.refsOf (.node s.addr) = n.refs := by simp [refsOf, hn]
      obtain ⟨t₁, ht₁, hsame, hrefs⟩ := unrefNode_spec h.refs_pos
      have h₁ := h.step hsame hrefs
      have hreleased₁ : Released t t₁ := hsame.released fun x => by
        rw [hrefs]
        split <;> omega
      simp only [deleteNode, hn, ht₁, Option.bind_eq_bind, Option.bind_some]
      by_cases hlast : n.refs = 1
      · have hzero : t₁.refsOf (.node s.addr) = 0 := by
          rw [hrefs, hrefsOf, hlast, if_pos rfl]
          rfl
        have hnot : s.addr ∉ pending := by
          intro hmem
          have := h.dead _ hmem
          omega
        have hbody₁ : t₁.bodyAt s.addr = some (content l s.entries) :=
          (hsame.body _).trans hrep.1
        have haside := h₁.setAside hbody₁ hnot hzero
        rw [if_pos hlast, hbody]
        have hfinish : ∀ {t₂}, Releasing t₂ (s.addr :: pending) ext → Released t₁ t₂ →
            Releasing (t₂.removeNode s.addr) pending ext ∧
              Released t (t₂.removeNode s.addr) := by
          intro t₂ h₂ hreleased₂
          refine ⟨h₂.removeNode, (hreleased₁.trans hreleased₂).trans ?_⟩
          exact released_removeNode (h₂.dead _ List.mem_cons_self)
        cases l with
        | zero =>
            obtain ⟨t₂, ht₂, h₂, hreleased₂⟩ :
                ∃ t', t₁.unrefBlocks s.bindings = some t' ∧ _ := unrefBlocks_spec haside
            refine ⟨t₂.removeNode s.addr, ?_, hfinish h₂ hreleased₂⟩
            change (t₁.unrefBlocks s.bindings).bind _ = _
            rw [ht₂]
            rfl
        | succ l =>
            have hrep₁ : RepOf t₁.bodyAt s.entries := by
              intro e he
              exact Rep.congr (hrep.2 e he) fun p _ => hsame.body p
            obtain ⟨t₂, ht₂, h₂, hreleased₂⟩ :=
              deleteNodes_spec (fun {_ _ _ _} => ih (by omega)) hrep₁ haside
            refine ⟨t₂.removeNode s.addr, ?_, hfinish h₂ hreleased₂⟩
            simp only [content_succ, ht₂, Option.bind_some]
      · rw [if_neg hlast]
        exact ⟨t₁, rfl, h₁, hreleased₁⟩

/-- `delete_tree` of a tree that is as high as the heap allows. -/
theorem deleteTree_spec {tree : Root K Value} (hroot : t.root = tree.2.addr)
    (hheight : tree.1 < t.nodes.next) (hrep : RepRoot t.bodyAt tree)
    (h : Balanced t (holding ext [.node t.root])) :
    ∃ t', t.deleteTree = some t' ∧ Balanced t' ext ∧ Released t t' := by
  rw [hroot] at h
  obtain ⟨t', hrun, h', hreleased⟩ := deleteNode_spec hheight hrep (releasing_nil.mpr h)
  refine ⟨t', ?_, releasing_nil.mp h', hreleased⟩
  rw [deleteTree, hroot]
  exact hrun

end Memoria.PersistentTree

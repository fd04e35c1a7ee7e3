import Memoria.PersistentTree

/-!
# Nodes, pointers and counters

What the elementary operations on nodes do to the three things the proofs speak of: the content of
every address, the counter of every node and block, and the number of places that hold it.
-/

namespace Memoria.PersistentTree

open Lib

variable {K B : Type}

inductive Ptr where
  | node (p : Nat)
  | block (b : Nat)
deriving DecidableEq

def ptrs : Body K → List Ptr
  | .leaf entries => entries.map fun e => .block e.2.blockPtr
  | .branch entries => entries.map fun e => .node e.2

def bodyAt (t : PersistentTree K B) (p : Nat) : Option (Body K) := (t.nodes.read p).map Node.body

def refsOf (t : PersistentTree K B) : Ptr → Int
  | .node p => (t.nodes.read p).elim 0 fun n => n.refs
  | .block b => (t.blocks.read b).elim 0 fun block => block.refs

def slots (t : PersistentTree K B) (x : Ptr) : Nat := t.nodes.sum fun _ n => (ptrs n.body).count x

/-- Every counter is the number of slots plus what is held from outside. For an address that is not
live this says that nothing points at it. -/
def Balanced (t : PersistentTree K B) (ext : Ptr → Nat) : Prop :=
  ∀ x, t.refsOf x = t.slots x + ext x

structure SameBodies (t t' : PersistentTree K B) : Prop where
  body : ∀ p, t'.bodyAt p = t.bodyAt p
  next : t'.nodes.next = t.nodes.next
  root : t'.root = t.root
  snapshotId : t'.snapshotId = t.snapshotId

theorem SameBodies.refl (t : PersistentTree K B) : SameBodies t t := ⟨fun _ => rfl, rfl, rfl, rfl⟩

theorem SameBodies.trans {t t' t'' : PersistentTree K B} (h : SameBodies t t')
    (h' : SameBodies t' t'') : SameBodies t t'' :=
  ⟨fun p => (h'.body p).trans (h.body p), h'.next.trans h.next, h'.root.trans h.root,
    h'.snapshotId.trans h.snapshotId⟩

theorem lt_next_of_bodyAt {t : PersistentTree K B} {p : Nat} {b : Body K}
    (hbody : t.bodyAt p = some b) : p < t.nodes.next := by
  obtain ⟨n, hn, -⟩ := Option.map_eq_some_iff.mp hbody
  exact Heap.lt_next_of_read hn

theorem bodyAt_of_next_le {t : PersistentTree K B} {p : Nat} (hp : t.nodes.next ≤ p) :
    t.bodyAt p = none := by
  cases hbody : t.bodyAt p with
  | none => rfl
  | some b =>
      have := lt_next_of_bodyAt hbody
      omega

theorem slots_eq_sum_bodies (t : PersistentTree K B) (x : Ptr) (p : Nat) :
    (t.nodes.read p).elim 0 (fun n => (ptrs n.body).count x)
      = (t.bodyAt p).elim 0 fun b => (ptrs b).count x := by
  unfold bodyAt
  cases t.nodes.read p <;> rfl

theorem SameBodies.slots {t t' : PersistentTree K B} (h : SameBodies t t') (x : Ptr) :
    t'.slots x = t.slots x := by
  refine Heap.sum_congr h.next ?_
  intro p
  rw [slots_eq_sum_bodies, slots_eq_sum_bodies, h.body]

theorem SameBodies.leafEntries {t t' : PersistentTree K B} (h : SameBodies t t') (p : Nat) :
    t'.leafEntries p = t.leafEntries p := by
  have hbody := h.body p
  unfold bodyAt at hbody
  unfold PersistentTree.leafEntries
  cases hn : t.nodes.read p <;> cases hn' : t'.nodes.read p <;> simp_all

theorem leafEntries_of_bodyAt {t : PersistentTree K B} {p : Nat} {es : List (K × Value)}
    (hbody : t.bodyAt p = some (.leaf es)) : t.leafEntries p = some es := by
  obtain ⟨n, hn, hb⟩ := Option.map_eq_some_iff.mp hbody
  simp [leafEntries, hn, hb]

theorem branchEntries_of_bodyAt {t : PersistentTree K B} {p : Nat} {es : List (K × Nat)}
    (hbody : t.bodyAt p = some (.branch es)) : t.branchEntries p = some es := by
  obtain ⟨n, hn, hb⟩ := Option.map_eq_some_iff.mp hbody
  simp [branchEntries, hn, hb]

theorem read_of_bodyAt {t : PersistentTree K B} {p : Nat} {b : Body K}
    (hbody : t.bodyAt p = some b) : ∃ n, t.nodes.read p = some n ∧ n.body = b :=
  Option.map_eq_some_iff.mp hbody

/-- What is counted is live. -/
theorem exists_body_of_refs {t : PersistentTree K B} {p : Nat} (h : t.refsOf (.node p) ≠ 0) :
    ∃ b, t.bodyAt p = some b := by
  unfold refsOf at h
  unfold bodyAt
  cases hn : t.nodes.read p with
  | none => simp [hn] at h
  | some n => exact ⟨n.body, rfl⟩

theorem exists_block_of_refs {t : PersistentTree K B} {b : Nat} (h : t.refsOf (.block b) ≠ 0) :
    ∃ block, t.blocks.read b = some block := by
  unfold refsOf at h
  cases hb : t.blocks.read b with
  | none => simp [hb] at h
  | some block => exact ⟨block, rfl⟩

/-- The slots of one node are part of all slots. -/
theorem count_le_slots {t : PersistentTree K B} {p : Nat} {b : Body K}
    (hbody : t.bodyAt p = some b) (x : Ptr) : (ptrs b).count x ≤ t.slots x := by
  obtain ⟨n, hn, rfl⟩ := read_of_bodyAt hbody
  exact Heap.le_sum hn fun _ n => (ptrs n.body).count x

theorem Balanced.refs_pos {t : PersistentTree K B} {ext : Ptr → Nat} (ht : Balanced t ext)
    {p : Nat} {b : Body K} (hbody : t.bodyAt p = some b) {x : Ptr} (hx : x ∈ ptrs b) :
    0 < t.refsOf x := by
  have hle := count_le_slots hbody x
  have hpos : 0 < (ptrs b).count x := List.count_pos_iff.mpr hx
  have := ht x
  omega

theorem bodyAt_setBody (t : PersistentTree K B) (p q : Nat) (b : Body K) :
    (t.setBody p b).bodyAt q = if q = p then (t.bodyAt q).map fun _ => b else t.bodyAt q := by
  simp only [bodyAt, setBody, Heap.read_modify]
  split <;> simp [Option.map_map, Function.comp_def]

theorem bodyAt_setBody_self {t : PersistentTree K B} {p : Nat} {b₀ : Body K}
    (hbody : t.bodyAt p = some b₀) (b : Body K) : (t.setBody p b).bodyAt p = some b := by
  simp [bodyAt_setBody, hbody]

theorem bodyAt_setBody_of_ne (t : PersistentTree K B) {p q : Nat} (hne : q ≠ p) (b : Body K) :
    (t.setBody p b).bodyAt q = t.bodyAt q := by
  simp [bodyAt_setBody, hne]

@[simp] theorem refsOf_setBody (t : PersistentTree K B) (p : Nat) (b : Body K) (x : Ptr) :
    (t.setBody p b).refsOf x = t.refsOf x := by
  cases x with
  | block b => rfl
  | node q =>
      simp only [refsOf, setBody, Heap.read_modify]
      split
      · cases t.nodes.read q <;> rfl
      · rfl

theorem slots_setBody {t : PersistentTree K B} {p : Nat} {b₀ : Body K}
    (hbody : t.bodyAt p = some b₀) (b : Body K) (x : Ptr) :
    (t.setBody p b).slots x + (ptrs b₀).count x = t.slots x + (ptrs b).count x := by
  obtain ⟨n, hn, rfl⟩ := read_of_bodyAt hbody
  exact Heap.sum_modify hn _ _

@[simp] theorem next_setBody (t : PersistentTree K B) (p : Nat) (b : Body K) :
    (t.setBody p b).nodes.next = t.nodes.next := rfl

@[simp] theorem root_setBody (t : PersistentTree K B) (p : Nat) (b : Body K) :
    (t.setBody p b).root = t.root := rfl

@[simp] theorem snapshotId_setBody (t : PersistentTree K B) (p : Nat) (b : Body K) :
    (t.setBody p b).snapshotId = t.snapshotId := rfl

theorem bodyAt_createNode (t : PersistentTree K B) (metadata : Int) (b : Body K) (q : Nat) :
    (t.createNode metadata b).bodyAt q = if q = t.nodes.next then some b else t.bodyAt q := by
  simp only [bodyAt, createNode, Heap.read_alloc]
  split <;> rfl

theorem refsOf_createNode (t : PersistentTree K B) (metadata : Int) (b : Body K) (x : Ptr) :
    (t.createNode metadata b).refsOf x = t.refsOf x := by
  cases x with
  | block b => rfl
  | node q =>
      simp only [refsOf, createNode, Heap.read_alloc]
      split
      · rename_i heq
        subst heq
        simp
      · rfl

theorem slots_createNode (t : PersistentTree K B) (metadata : Int) (b : Body K) (x : Ptr) :
    (t.createNode metadata b).slots x = t.slots x + (ptrs b).count x :=
  Heap.sum_alloc _ _ _

@[simp] theorem next_createNode (t : PersistentTree K B) (metadata : Int) (b : Body K) :
    (t.createNode metadata b).nodes.next = t.nodes.next + 1 := rfl

@[simp] theorem root_createNode (t : PersistentTree K B) (metadata : Int) (b : Body K) :
    (t.createNode metadata b).root = t.root := rfl

@[simp] theorem snapshotId_createNode (t : PersistentTree K B) (metadata : Int) (b : Body K) :
    (t.createNode metadata b).snapshotId = t.snapshotId := rfl

theorem sameBodies_of_modify (t : PersistentTree K B) (p : Nat) {f : Node K → Node K}
    (hf : ∀ n, (f n).body = n.body) : SameBodies t { t with nodes := t.nodes.modify p f } := by
  refine ⟨?_, rfl, rfl, rfl⟩
  intro q
  simp only [bodyAt, Heap.read_modify]
  split
  · simp [Option.map_map, Function.comp_def, hf]
  · rfl

theorem sameBodies_addSize (t : PersistentTree K B) (delta : Int) :
    SameBodies t (t.addSize delta) := sameBodies_of_modify t t.root fun _ => rfl

@[simp] theorem refsOf_addSize (t : PersistentTree K B) (delta : Int) (x : Ptr) :
    (t.addSize delta).refsOf x = t.refsOf x := by
  cases x with
  | block b => rfl
  | node q =>
      simp only [refsOf, addSize, Heap.read_modify]
      split
      · cases t.nodes.read q <;> rfl
      · rfl

/-- Counters are the only thing that references change. -/
theorem refNode_spec {t : PersistentTree K B} {p : Nat} {b : Body K}
    (hbody : t.bodyAt p = some b) :
    ∃ t', t.refNode p = some t' ∧ SameBodies t t' ∧
      ∀ x, t'.refsOf x = t.refsOf x + if x = .node p then 1 else 0 := by
  obtain ⟨n, hn, -⟩ := read_of_bodyAt hbody
  refine ⟨{ t with nodes := t.nodes.modify p fun node => { node with refs := node.refs + 1 } },
    by simp [refNode, hn], sameBodies_of_modify t p fun _ => rfl, ?_⟩
  intro x
  cases x with
  | block b => simp [refsOf]
  | node q =>
      simp only [refsOf, Heap.read_modify, Ptr.node.injEq]
      split
      · rename_i heq
        subst heq
        simp [hn]
      · simp

theorem unrefNode_spec {t : PersistentTree K B} {p : Nat} (hrefs : 0 < t.refsOf (.node p)) :
    ∃ t', t.unrefNode p = some t' ∧ SameBodies t t' ∧
      ∀ x, t'.refsOf x = t.refsOf x - if x = .node p then 1 else 0 := by
  obtain ⟨b, hb⟩ := exists_body_of_refs (by omega : t.refsOf (.node p) ≠ 0)
  obtain ⟨n, hn, -⟩ := read_of_bodyAt hb
  have hpos : 0 < n.refs := by simpa [refsOf, hn] using hrefs
  refine ⟨{ t with nodes := t.nodes.modify p fun node => { node with refs := node.refs - 1 } },
    by simp [unrefNode, hn, guard, hpos], sameBodies_of_modify t p fun _ => rfl, ?_⟩
  intro x
  cases x with
  | block b => simp [refsOf]
  | node q =>
      simp only [refsOf, Heap.read_modify, Ptr.node.injEq]
      split
      · rename_i heq
        subst heq
        simp [hn]
        omega
      · simp

theorem bodyAt_removeNode (t : PersistentTree K B) (p q : Nat) :
    (t.removeNode p).bodyAt q = if q = p then none else t.bodyAt q := by
  simp only [bodyAt, removeNode, Heap.read_free]
  split <;> rfl

theorem refsOf_removeNode (t : PersistentTree K B) (p : Nat) (x : Ptr) :
    (t.removeNode p).refsOf x = if x = .node p then 0 else t.refsOf x := by
  cases x with
  | block b => simp [refsOf, removeNode]
  | node q =>
      simp only [refsOf, removeNode, Heap.read_free, Ptr.node.injEq]
      split <;> rfl

theorem slots_removeNode {t : PersistentTree K B} {p : Nat} {b : Body K}
    (hbody : t.bodyAt p = some b) (x : Ptr) :
    (t.removeNode p).slots x + (ptrs b).count x = t.slots x := by
  obtain ⟨n, hn, rfl⟩ := read_of_bodyAt hbody
  exact Heap.sum_free hn _

@[simp] theorem next_removeNode (t : PersistentTree K B) (p : Nat) :
    (t.removeNode p).nodes.next = t.nodes.next := rfl

@[simp] theorem root_removeNode (t : PersistentTree K B) (p : Nat) :
    (t.removeNode p).root = t.root := rfl

@[simp] theorem snapshotId_removeNode (t : PersistentTree K B) (p : Nat) :
    (t.removeNode p).snapshotId = t.snapshotId := rfl

theorem refBlock_spec {t : PersistentTree K B} {b : Nat} {block : Block B}
    (hblock : t.blocks.read b = some block) :
    ∃ t', t.refBlock b = some t' ∧ SameBodies t t' ∧
      ∀ x, t'.refsOf x = t.refsOf x + if x = .block b then 1 else 0 := by
  refine ⟨{ t with
    blocks := t.blocks.modify b fun block => { block with refs := block.refs + 1 } },
    by simp [refBlock, hblock], ⟨fun _ => rfl, rfl, rfl, rfl⟩, ?_⟩
  intro x
  cases x with
  | node p => simp [refsOf]
  | block c =>
      simp only [refsOf, Heap.read_modify, Ptr.block.injEq]
      split
      · rename_i heq
        subst heq
        simp [hblock]
      · simp

theorem unrefBlock_spec {t : PersistentTree K B} {b : Nat} (hrefs : t.refsOf (.block b) ≠ 0) :
    ∃ t', t.unrefBlock b = some t' ∧ SameBodies t t' ∧
      ∀ x, t'.refsOf x = t.refsOf x - if x = .block b then 1 else 0 := by
  obtain ⟨block, hblock⟩ := exists_block_of_refs hrefs
  by_cases hlast : block.refs = 1
  · refine ⟨{ t with blocks := t.blocks.free b }, by simp [unrefBlock, hblock, hlast],
      ⟨fun _ => rfl, rfl, rfl, rfl⟩, ?_⟩
    intro x
    cases x with
    | node p => simp [refsOf]
    | block c =>
        simp only [refsOf, Heap.read_free, Ptr.block.injEq]
        split
        · rename_i heq
          subst heq
          simp [hblock, hlast]
        · simp
  · refine ⟨{ t with
      blocks := t.blocks.modify b fun block => { block with refs := block.refs - 1 } },
      by simp [unrefBlock, hblock, hlast], ⟨fun _ => rfl, rfl, rfl, rfl⟩, ?_⟩
    intro x
    cases x with
    | node p => simp [refsOf]
    | block c =>
        simp only [refsOf, Heap.read_modify, Ptr.block.injEq]
        split
        · rename_i heq
          subst heq
          simp [hblock]
        · simp

/-- `set_root` moves the snapshot's own reference. -/
theorem setRoot_spec {t : PersistentTree K B} {p : Nat} {b : Body K}
    (hrefs : 0 < t.refsOf (.node t.root)) (hbody : t.bodyAt p = some b) :
    ∃ t', t.setRoot p = some t' ∧ (∀ q, t'.bodyAt q = t.bodyAt q) ∧ t'.root = p ∧
      t'.nodes.next = t.nodes.next ∧ (∀ x, t'.slots x = t.slots x) ∧
      ∀ x, t'.refsOf x + (if x = .node t.root then 1 else 0)
        = t.refsOf x + if x = .node p then 1 else 0 := by
  obtain ⟨t₁, ht₁, hsame₁, hrefs₁⟩ := unrefNode_spec hrefs
  have hbody₁ : PersistentTree.bodyAt { t₁ with root := p } p = some b := by
    rw [← hbody, ← hsame₁.body]
    rfl
  obtain ⟨t₂, ht₂, hsame₂, hrefs₂⟩ := refNode_spec hbody₁
  refine ⟨t₂, ?_, ?_, hsame₂.root, hsame₂.next.trans hsame₁.next, ?_, ?_⟩
  · simp only [setRoot, ht₁, Option.bind_eq_bind, Option.bind_some]
    exact ht₂
  · exact fun q => (hsame₂.body q).trans (hsame₁.body q)
  · exact fun x => (hsame₂.slots x).trans (hsame₁.slots x)
  · intro x
    have hsame : PersistentTree.refsOf { t₁ with root := p } x = t₁.refsOf x := rfl
    rw [hrefs₂, hsame, hrefs₁]
    split_ifs <;> omega

theorem count_ptrs_insertIdx {es : List (K × Nat)} {idx : Nat} (hidx : idx ≤ es.length)
    (e : K × Nat) (x : Ptr) :
    (ptrs (.branch (es.insertIdx idx e) : Body K)).count x
      = (ptrs (.branch es : Body K)).count x + if x = .node e.2 then 1 else 0 := by
  have hperm := (List.perm_insertIdx e es hidx).map fun d => Ptr.node d.2
  simp only [ptrs, hperm.count_eq, List.map_cons, List.count_cons, beq_iff_eq, eq_comm (b := x)]

/-- `insert_child_node` on a node with room. -/
theorem insertChildNode_spec [Inhabited K] (layout : NodeLayout) {t : PersistentTree K B}
    {p child : Nat} (idx : Nat) {es : List (K × Nat)} {b : Body K}
    (hbody : t.bodyAt p = some (.branch es)) (hchild : t.bodyAt child = some b)
    (hroom : es.length < layout.nodeSize) (hidx : idx ≤ es.length) :
    ∃ t', t.insertChildNode layout p idx child = some t' ∧
      (∀ q, t'.bodyAt q
        = if q = p then some (.branch (es.insertIdx idx (b.maxKey, child))) else t.bodyAt q) ∧
      (∀ x, t'.refsOf x = t.refsOf x + if x = .node child then 1 else 0) ∧
      (∀ x, t'.slots x = t.slots x + if x = .node child then 1 else 0) ∧
      t'.nodes.next = t.nodes.next ∧ t'.root = t.root := by
  obtain ⟨n, hn, hb⟩ := read_of_bodyAt hchild
  have hchild' : ∃ b', (t.setBody p (.branch (es.insertIdx idx (b.maxKey, child)))).bodyAt child
      = some b' := by
    rw [bodyAt_setBody, hchild]
    split <;> simp
  obtain ⟨b', hb'⟩ := hchild'
  obtain ⟨t', ht', hsame, hrefs⟩ := refNode_spec hb'
  refine ⟨t', ?_, ?_, ?_, ?_, hsame.next, hsame.root⟩
  · simp only [insertChildNode, hn, hb, branchEntries_of_bodyAt hbody, guard, hroom, if_true,
      Option.bind_eq_bind, Option.bind_some]
    exact ht'
  · intro q
    rw [hsame.body, bodyAt_setBody]
    split
    · rename_i heq
      rw [heq, hbody]
      rfl
    · rfl
  · intro x
    rw [hrefs, refsOf_setBody]
  · intro x
    have hset := slots_setBody hbody (.branch (es.insertIdx idx (b.maxKey, child))) x
    rw [count_ptrs_insertIdx hidx] at hset
    rw [hsame.slots]
    dsimp only at hset ⊢
    omega

end Memoria.PersistentTree

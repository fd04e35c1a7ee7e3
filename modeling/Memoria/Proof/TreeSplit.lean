import Memoria.Lib.SplitTree
import Memoria.Proof.TreeKeys

/-!
# Splitting a path

A full node on an owned path is split in two halves. The right half is a node of its own until its
parent, which may have to be split first, has taken it in.
-/

namespace Memoria.PersistentTree

open Lib

variable {K B : Type} {t t' : PersistentTree K B} {others : Ptr → Nat} {l : Nat}

structure Spare (t : PersistentTree K B) (tree : Root K Value) (r : Slot K Value (l + 1)) :
    Prop where
  rep : Rep t.bodyAt (l + 1) r
  nodup : (addrs (l + 1) r).Nodup
  disjoint : ∀ p ∈ addrs (l + 1) r, p ∉ rootAddrs tree
  refs : t.refsOf (.node r.addr) = 0

theorem Spare.lt_next {tree : Root K Value} {r : Slot K Value (l + 1)} (hr : Spare t tree r)
    {p : Nat} (hp : p ∈ addrs (l + 1) r) : p < t.nodes.next := by
  obtain ⟨b, hb⟩ := hr.rep.exists_content hp
  exact lt_next_of_bodyAt hb

/-- Steps that write to the tree do not see it. -/
theorem Spare.transfer {tree tree' : Root K Value} {r : Slot K Value (l + 1)} {path : List Nat}
    (hr : Spare t tree r) (hwrites : WritesTo path t t')
    (hpath : ∀ p ∈ path, p ∈ rootAddrs tree)
    (haddrs : ∀ p ∈ rootAddrs tree', p ∈ rootAddrs tree ∨ t.nodes.next ≤ p)
    (hrefs : t'.refsOf (.node r.addr) = t.refsOf (.node r.addr)) : Spare t' tree' r := by
  refine ⟨?_, hr.nodup, ?_, hrefs.trans hr.refs⟩
  · refine hr.rep.congr fun p hp => hwrites.2 p (hr.lt_next hp) ?_
    exact fun hmem => hr.disjoint p hp (hpath p hmem)
  · intro p hp hmem
    rcases haddrs p hmem with hold | hnew
    · exact hr.disjoint p hp hold
    · have := hr.lt_next hp
      omega

theorem path_subset_rootAddrs (c : Ctx K Value l) (s : Slot K Value (l + 1)) :
    ∀ p ∈ s.addr :: c.path, p ∈ rootAddrs (c.plug s) := by
  intro p hp
  refine (rootAddrs_plug c s).mem_iff.mpr ?_
  rw [addrs_node]
  rcases List.mem_cons.mp hp with rfl | hp
  · exact List.mem_append_left _ List.mem_cons_self
  · exact List.mem_append_right _ (List.mem_append_left _ hp)

theorem mem_rootAddrs_plug {c : Ctx K Value l} {s : Slot K Value (l + 1)} {p : Nat} :
    p ∈ rootAddrs (c.plug s) ↔
      p = s.addr ∨ p ∈ addrsOf s.entries ∨ p ∈ c.path ∨ p ∈ c.siblingAddrs := by
  rw [(rootAddrs_plug c s).mem_iff, addrs_node]
  simp

theorem rootAddrs_fixKeys [Inhabited K] (c : Ctx K Value l) (s s' : Slot K Value (l + 1)) (p : Nat) :
    p ∈ rootAddrs ((c.fixKeys s').plug s) ↔ p ∈ rootAddrs (c.plug s) := by
  rw [(rootAddrs_plug _ s).mem_iff, (rootAddrs_plug c s).mem_iff, Ctx.path_fixKeys,
    Ctx.siblingAddrs_fixKeys]

theorem splitTo_content (es : List (K × Slot K Value l)) (start : Nat) :
    Body.splitTo (content l es) start
      = (content l (es.take start), content l (es.drop start)) := by
  cases l with
  | zero => rfl
  | succ l => simp [Body.splitTo, content, pointers, List.map_take, List.map_drop]

theorem addrsOf_take_drop (es : List (K × Slot K Value l)) (n : Nat) :
    addrsOf (es.take n) ++ addrsOf (es.drop n) = addrsOf es := by
  rw [← addrsOf_append, List.take_append_drop]

theorem addrs_take_subset (s : Slot K Value (l + 1)) (n : Nat) :
    ∀ p ∈ Lib.addrs (l + 1) (.node s.addr (s.entries.take n)), p ∈ Lib.addrs (l + 1) s := by
  intro p hp
  rcases List.mem_cons.mp hp with rfl | hp
  · exact List.mem_cons_self
  · refine List.mem_cons_of_mem _ ?_
    change p ∈ addrsOf s.entries
    rw [← addrsOf_take_drop s.entries n]
    exact List.mem_append_left _ hp

theorem addrs_drop_subset (s : Slot K Value (l + 1)) (n q : Nat) :
    ∀ p ∈ Lib.addrs (l + 1) (.node q (s.entries.drop n)), p ∈ Lib.addrs (l + 1) s ∨ p = q := by
  intro p hp
  rcases List.mem_cons.mp hp with rfl | hp
  · exact Or.inr rfl
  · refine Or.inl (List.mem_cons_of_mem _ ?_)
    change p ∈ addrsOf s.entries
    rw [← addrsOf_take_drop s.entries n]
    exact List.mem_append_right _ hp

/-- `split_node` with the new node for the right half. -/
theorem splitNode_spec {c : Ctx K Value l} {s : Slot K Value (l + 1)}
    (h : Holds t others (c.plug s)) (n : Nat) :
    let t' := (t.createNode 0 (content l (s.entries.drop n))).setBody s.addr
      (content l (s.entries.take n))
    Holds t' others (c.plug (.node s.addr (s.entries.take n))) ∧
      Spare t' (c.plug (.node s.addr (s.entries.take n)))
        (Slot.node t.nodes.next (s.entries.drop n)) ∧
      WritesTo [s.addr] t t' ∧ (∀ x, t'.refsOf x = t.refsOf x) := by
  intro t'
  have hbody := h.bodyAt_node
  have hlt := lt_next_of_bodyAt hbody
  have hbody₁ : (t.createNode 0 (content l (s.entries.drop n))).bodyAt s.addr
      = some (content l s.entries) := by
    rw [bodyAt_createNode, if_neg (by omega), hbody]
  have hrefs : ∀ x, t'.refsOf x = t.refsOf x := by
    intro x
    rw [refsOf_setBody, refsOf_createNode]
  have hbal : BalancedStep t t' := by
    intro x
    have hset := slots_setBody hbody₁ (content l (s.entries.take n)) x
    have hcount : (ptrs (content l s.entries)).count x
        = (ptrs (content l (s.entries.take n))).count x
          + (ptrs (content l (s.entries.drop n))).count x := by
      rw [← List.count_append, ← ptrs_content_append, List.take_append_drop]
    rw [slots_createNode] at hset
    rw [hrefs]
    have hslots : t'.slots x = t.slots x := by
      change (PersistentTree.setBody _ _ _).slots x = _
      omega
    omega
  have hself : t'.bodyAt s.addr = some (content l (s.entries.take n)) :=
    bodyAt_setBody_self hbody₁ _
  have hother : ∀ p, p < t.nodes.next → p ≠ s.addr → t'.bodyAt p = t.bodyAt p := by
    intro p hp hne
    rw [bodyAt_setBody_of_ne _ hne, bodyAt_createNode, if_neg (by omega)]
  have hentries := (rep_node.mp ((repRoot_plug c s).mp h.rep).1).2
  rw [← List.take_append_drop n s.entries, repOf_append] at hentries
  have hnodup := h.nodup_at
  have hsplit := addrsOf_take_drop s.entries n
  have hdrop : ∀ p ∈ addrsOf (s.entries.drop n), p ∈ addrsOf s.entries := by
    intro p hp
    rw [← hsplit]
    exact List.mem_append_right _ hp
  refine ⟨?_, ⟨⟨?_, ?_⟩, ?_, ?_, ?_⟩, ⟨by simp [t'], ?_⟩, hrefs⟩
  · refine h.setNode ?_ hentries.1 rfl hself hother hbal ?_
    · rw [← hsplit]
      exact List.sublist_append_left _ _
    · rw [hrefs]
      exact h.owned
  · have hne : t.nodes.next ≠ s.addr := by omega
    rw [Slot.addr_node, bodyAt_setBody_of_ne _ hne, bodyAt_createNode, if_pos rfl,
      Slot.entries_node]
  · have hdropped : RepOf t.bodyAt (s.entries.drop n) := hentries.2
    refine hdropped.congr ?_
    intro p hp
    have hmem : p ∈ addrsOf s.entries ++ (c.path ++ c.siblingAddrs) :=
      List.mem_append_left _ (hdrop p hp)
    refine hother p (h.lt_next_at (List.mem_cons_of_mem _ hmem)) ?_
    rintro rfl
    exact (List.nodup_cons.mp hnodup).1 hmem
  · refine List.nodup_cons.mpr ⟨?_, ?_⟩
    · intro hmem
      exact absurd (h.lt_next_at (List.mem_cons_of_mem _ (List.mem_append_left _ (hdrop _ hmem))))
        (lt_irrefl _)
    · have hsub : (addrsOf (s.entries.drop n)).Sublist (addrsOf s.entries) := by
        rw [← hsplit]
        exact List.sublist_append_right _ _
      exact (List.nodup_append.mp (List.nodup_cons.mp hnodup).2).1.sublist hsub
  · intro p hp hmem
    rw [(rootAddrs_plug c _).mem_iff] at hmem
    have hcases : p = t.nodes.next ∨ p ∈ addrsOf (s.entries.drop n) := List.mem_cons.mp hp
    have hmem' : p ∈ s.addr :: (addrsOf (s.entries.take n) ++ (c.path ++ c.siblingAddrs)) := hmem
    rcases hcases with rfl | hp
    · have hin : t.nodes.next ∈ addrs (l + 1) s ++ (c.path ++ c.siblingAddrs) := by
        rcases List.mem_cons.mp hmem' with heq | hrest
        · exact heq ▸ List.mem_cons_self
        · refine List.mem_cons_of_mem _ ?_
          rcases List.mem_append.mp hrest with hrest | hrest
          · refine List.mem_append_left _ ?_
            change _ ∈ addrsOf s.entries
            rw [← hsplit]
            exact List.mem_append_left _ hrest
          · exact List.mem_append_right _ hrest
      exact absurd (h.lt_next_at hin) (lt_irrefl _)
    · have hlist : (s.addr :: (addrsOf (s.entries.take n) ++ addrsOf (s.entries.drop n))
          ++ (c.path ++ c.siblingAddrs)).Nodup := by
        rw [hsplit]
        exact hnodup
      have hperm : (s.addr :: (addrsOf (s.entries.take n) ++ addrsOf (s.entries.drop n))
          ++ (c.path ++ c.siblingAddrs)).Perm
          (addrsOf (s.entries.drop n) ++
            (s.addr :: (addrsOf (s.entries.take n) ++ (c.path ++ c.siblingAddrs)))) := by
        rw [List.cons_append, List.append_assoc]
        refine List.Perm.trans (List.Perm.cons _ ?_) List.perm_middle.symm
        exact List.perm_append_comm_assoc _ _ _
      exact List.disjoint_of_nodup_append (hperm.nodup_iff.mp hlist) hp hmem'
  · rw [hrefs]
    simp [refsOf]
  · intro p hp hne
    exact hother p hp (fun heq => hne (List.mem_singleton.mpr heq))

theorem Holds.root_mem {r : Root K Value} (h : Holds t others r) : t.root ∈ rootAddrs r := by
  rw [h.root]
  exact List.mem_cons_self

theorem addrsOf_insert (left right : List (K × Slot K Value l)) (e d : K × Slot K Value l) :
    (addrsOf (left ++ e :: d :: right)).Perm (addrs l d.2 ++ addrsOf (left ++ e :: right)) := by
  simp only [addrsOf_append, addrsOf_cons]
  refine List.Perm.trans (List.Perm.append_left _ ?_) (List.perm_append_comm_assoc _ _ _)
  exact List.perm_append_comm_assoc _ _ _

section Attach

variable [Inhabited K] {layout : NodeLayout}

variable (layout) in
/-- The spare node becomes the right neighbour of the node at a position. -/
theorem attach_spec {f : Frame K Value l} {c : Ctx K Value (l + 1)} {s r : Slot K Value (l + 1)}
    (h : Holds t others ((Ctx.up f c).plug s)) (hr : Spare t ((Ctx.up f c).plug s) r)
    (hroom : f.left.length + f.right.length + 1 < layout.nodeSize) :
    ∃ t₁ t₂, t.insertChildNode layout f.addr (f.left.length + 1) r.addr = some t₁ ∧
      t₁.updateKeysUp (f.addr :: c.path) (f.left.length + 1) = some t₂ ∧
      Holds t₂ others ((f.attach c s r).plug s r) ∧ WritesTo (f.addr :: c.path) t t₂ ∧
      (∀ x, t₂.refsOf x = t.refsOf x + if x = .node r.addr then 1 else 0) ∧
      t₂.nodes.next = t.nodes.next := by
  have hparent := h.bodyAt_parent
  have hlen : (f.pointersAt s.addr).length = f.left.length + f.right.length + 1 := by
    simp [Frame.pointersAt]
    omega
  obtain ⟨t₁, ht₁, hbody₁, hrefs₁, hslots₁, hnext₁, hroot₁⟩ :=
    insertChildNode_spec layout (f.left.length + 1) hparent hr.rep.1
      (by omega) (by omega)
  have hinsert : (f.pointersAt s.addr).insertIdx (f.left.length + 1) (lastKey r.entries, r.addr)
      = pointers (f.left ++ (f.key, s) :: (lastKey r.entries, r) :: f.right) := by
    have := insertIdx_append_cons (pointers f.left) (pointers f.right) (f.key, s.addr)
      (lastKey r.entries, r.addr)
    rw [length_pointers] at this
    simpa [Frame.pointersAt] using this
  rw [maxKey_content, hinsert] at hbody₁
  have hnodup := h.nodup
  have hperm := rootAddrs_plug c (f.plug s)
  have hall : (addrs (l + 1) r ++ rootAddrs (c.plug (f.plug s))).Nodup :=
    hr.nodup.append hnodup fun p hp hmem => hr.disjoint p hp hmem
  have hnotParent : ∀ p ∈ addrs (l + 1) r ++ (addrsOf (f.plug s).entries ++
      (c.path ++ c.siblingAddrs)), p ≠ f.addr := by
    rintro p hp rfl
    rcases List.mem_append.mp hp with hp | hp
    · exact hr.disjoint f.addr hp (hperm.mem_iff.mpr List.mem_cons_self)
    · exact (List.nodup_cons.mp (hperm.nodup_iff.mp hnodup)).1 hp
  have hother : ∀ p ∈ addrs (l + 1) r ++ (addrsOf (f.plug s).entries ++
      (c.path ++ c.siblingAddrs)), t₁.bodyAt p = t.bodyAt p := by
    intro p hp
    rw [hbody₁, if_neg (hnotParent p hp)]
  have h₁ : Holds t₁ others (c.plug
      (.node f.addr (f.left ++ (f.key, s) :: (lastKey r.entries, r) :: f.right))) := by
    have hup : Holds t others (c.plug (f.plug s)) := h
    refine hup.setEntries ?_ hroot₁ ?_ ?_ ?_ ?_ ?_
    · refine (List.Perm.nodup_iff ?_).mp hall
      refine (List.Perm.append_left _ hperm).trans ?_
      rw [← List.append_assoc]
      refine List.Perm.append_right _ (List.perm_middle.trans (List.Perm.cons _ ?_))
      exact (addrsOf_insert f.left f.right (f.key, s) (lastKey r.entries, r)).symm
    · rw [Frame.addr_plug, hbody₁, if_pos rfl, content_succ]
    · have hrep := (rep_node.mp ((repRoot_plug c (f.plug s)).mp h.rep).1).2
      have hrep₁ := hrep.congr fun p hp =>
        hother p (List.mem_append_right _ (List.mem_append_left _ hp))
      have hr₁ := hr.rep.congr fun p hp => hother p (List.mem_append_left _ hp)
      simp only [Frame.entries_plug, repOf_append, repOf_cons] at hrep₁ ⊢
      exact ⟨hrep₁.1, hrep₁.2.1, hr₁, hrep₁.2.2⟩
    · exact fun p hp => hother p (List.mem_append_right _ (List.mem_append_right _ hp))
    · intro x
      rw [hrefs₁, hslots₁]
      split <;> omega
    · have hne : t.root ≠ r.addr := by
        intro heq
        exact hr.disjoint r.addr List.mem_cons_self (heq ▸ h.root_mem)
      rw [hrefs₁, if_neg (by simpa using hne), h.owned]
      rfl
  obtain ⟨t₂, ht₂, h₂, hwrites₂, hrefs₂, -, hnext₂, -⟩ := updateKeysUp_spec h₁ (f.left.length + 1)
  refine ⟨t₁, t₂, ht₁, ht₂, ?_, ?_, ?_, by rw [hnext₂, hnext₁]⟩
  · have hempty : (f.left ++ (f.key, s) :: (lastKey r.entries, r) :: f.right).length
        ≤ f.left.length + 1 + 1 ↔ f.right.isEmpty = true := by
      simp only [List.length_append, List.length_cons, List.isEmpty_iff, ← List.length_eq_zero_iff]
      omega
    simp only [Slot.entries_node, hempty] at h₂
    unfold Frame.attach Twins.plug Twins.parent
    dsimp only
    split at h₂
    · rename_i hright
      rw [if_pos hright]
      rw [List.isEmpty_iff] at hright
      rw [hright] at h₂ ⊢
      exact h₂
    · rename_i hright
      rw [if_neg hright]
      exact h₂
  · suffices hfirst : WritesTo (f.addr :: c.path) t t₁ from
      hfirst.trans (hwrites₂.mono fun p hp => List.mem_cons_of_mem _ hp)
    refine ⟨le_of_eq hnext₁.symm, ?_⟩
    intro p _ hp
    have hne : p ≠ f.addr := fun heq => hp (heq ▸ List.mem_cons_self)
    rw [hbody₁, if_neg hne]
  · intro x
    rw [hrefs₂, hrefs₁]

variable (layout) in
/-- A root that is split gets a new root above it. -/
theorem growRoot_spec {s r : Slot K Value (l + 1)} (h : Holds t others ((Ctx.top : Ctx K Value l).plug s))
    (hr : Spare t (Ctx.top.plug s) r) (metadata : Int) :
    ∃ t₁ t₂ t₃,
      (t.createNode metadata (.branch [])).insertChildNode layout t.nodes.next 0 s.addr
        = some t₁ ∧
      t₁.insertChildNode layout t.nodes.next 1 r.addr = some t₂ ∧
      t₂.setRoot t.nodes.next = some t₃ ∧
      Holds t₃ others (Twins.plug
        ⟨t.nodes.next, [], lastKey s.entries, lastKey r.entries, [], .top⟩ s r) ∧
      WritesTo [] t t₃ ∧
      (∀ x, t₃.refsOf x = t.refsOf x + (if x = .node r.addr then 1 else 0)
        + if x = .node t.nodes.next then 1 else 0) ∧
      t₃.nodes.next = t.nodes.next + 1 := by
  have hroot : t.root = s.addr := h.root
  have hlts : s.addr < t.nodes.next := hroot ▸ h.lt_next h.root_mem
  have hltr : r.addr < t.nodes.next := hr.lt_next List.mem_cons_self
  have htwo := layout.two_le_nodeSize
  have hbody₀ := bodyAt_createNode t metadata (.branch [])
  have hs₀ := hbody₀ s.addr
  rw [if_neg (by omega), h.bodyAt_node] at hs₀
  have hnew₀ : (t.createNode metadata (.branch [])).bodyAt t.nodes.next = some (.branch []) := by
    rw [hbody₀, if_pos rfl]
  obtain ⟨t₁, ht₁, hbody₁, hrefs₁, hslots₁, hnext₁, hroot₁⟩ :=
    insertChildNode_spec layout 0 hnew₀ hs₀
      (by simp only [List.length_nil]; omega) (Nat.zero_le _)
  rw [maxKey_content] at hbody₁
  have hr₁ : t₁.bodyAt r.addr = some (content l r.entries) := by
    rw [hbody₁, if_neg (by omega), hbody₀, if_neg (by omega), hr.rep.1]
  have hnew₁ : t₁.bodyAt t.nodes.next = some (.branch [(lastKey s.entries, s.addr)]) := by
    rw [hbody₁, if_pos rfl]
    rfl
  obtain ⟨t₂, ht₂, hbody₂, hrefs₂, hslots₂, hnext₂, hroot₂⟩ :=
    insertChildNode_spec layout 1 hnew₁ hr₁
      (by simp only [List.length_singleton]; omega) le_rfl
  rw [maxKey_content] at hbody₂
  have hold : ∀ p, p < t.nodes.next → t₂.bodyAt p = t.bodyAt p := by
    intro p hp
    rw [hbody₂, if_neg (by omega), hbody₁, if_neg (by omega), hbody₀, if_neg (by omega)]
  have hnew : t₂.bodyAt t.nodes.next
      = some (.branch [(lastKey s.entries, s.addr), (lastKey r.entries, r.addr)]) := by
    rw [hbody₂, if_pos rfl]
    rfl
  have hroot₂' : t₂.root = s.addr := by rw [hroot₂, hroot₁, root_createNode, hroot]
  have hrefs : ∀ x, t₂.refsOf x = t.refsOf x + (if x = .node s.addr then 1 else 0)
      + if x = .node r.addr then 1 else 0 := by
    intro x
    rw [hrefs₂, hrefs₁, refsOf_createNode]
  have howned := h.owned
  rw [hroot] at howned
  obtain ⟨t₃, ht₃, hbody₃, hroot₃, hnext₃, hslots₃, hrefs₃⟩ :=
    setRoot_spec (t := t₂) (by
      rw [hroot₂', hrefs, howned, if_pos rfl]
      split <;> omega) hnew
  rw [hroot₂'] at hrefs₃
  have hfinal : ∀ x, t₃.refsOf x = t.refsOf x + (if x = .node r.addr then 1 else 0)
      + if x = .node t.nodes.next then 1 else 0 := by
    intro x
    have h₂ := hrefs x
    have h₃ := hrefs₃ x
    omega
  refine ⟨t₁, t₂, t₃, ht₁, ht₂, ht₃, ⟨?_, ?_, hroot₃, ?_, ?_⟩, ⟨?_, ?_⟩, hfinal, ?_⟩
  · refine ⟨?_, ?_⟩
    · exact (hbody₃ _).trans hnew
    · intro e he
      rcases List.mem_cons.mp he with rfl | he
      · refine Rep.congr h.rep fun p hp => ?_
        rw [hbody₃, hold p (h.lt_next hp)]
      · obtain rfl := List.mem_singleton.mp he
        refine Rep.congr hr.rep fun p hp => ?_
        rw [hbody₃, hold p (hr.lt_next hp)]
  · have haddrs : rootAddrs (Twins.plug
        ⟨t.nodes.next, [], lastKey s.entries, lastKey r.entries, [], .top⟩ s r)
        = t.nodes.next :: (addrs (l + 1) s ++ (addrs (l + 1) r ++ [])) := rfl
    rw [haddrs, List.append_nil]
    refine List.nodup_cons.mpr ⟨?_, ?_⟩
    · intro hmem
      rcases List.mem_append.mp hmem with hmem | hmem
      · exact absurd (h.lt_next hmem) (lt_irrefl _)
      · exact absurd (hr.lt_next hmem) (lt_irrefl _)
    · exact List.Nodup.append h.nodup hr.nodup fun p hp hmem => hr.disjoint p hmem hp
  · intro x
    have hbal := h.balanced x
    have hs₁ := hslots₁ x
    have hs₂ := hslots₂ x
    rw [slots_createNode] at hs₁
    simp only [withRoot, hroot] at hbal
    simp only [withRoot, hroot₃, hfinal, hslots₃, hs₂, hs₁, ptrs, List.map_nil, List.count_nil]
    split_ifs at hbal ⊢ <;> omega
  · have hfresh : t.refsOf (.node t.nodes.next) = 0 := by simp [refsOf]
    have hne : t.nodes.next ≠ r.addr := by omega
    rw [hroot₃, hfinal, hfresh]
    simp [hne]
  · rw [hnext₃, hnext₂, hnext₁, next_createNode]
    omega
  · intro p hp _
    rw [hbody₃, hold p hp]
  · rw [hnext₃, hnext₂, hnext₁, next_createNode]

end Attach

section Split

variable [Inhabited K] {layout : NodeLayout}

def newRefs (t t' : PersistentTree K B) : Ptr → Int
  | .node p => if t.nodes.next ≤ p ∧ p < t'.nodes.next then 1 else 0
  | .block _ => 0

def SplitFits (layout : NodeLayout) : {l : Nat} → Ctx K Value l → Nat → Prop
  | _, .top, level => level + 2 ≤ pathSize
  | _, .up f c, level => f.left.length + f.right.length + 1 < layout.nodeSize ∨
      f.left.length + f.right.length + 1 = layout.nodeSize ∧ SplitFits layout c (level + 1)

theorem splitFits_fixKeys (c : Ctx K Value l) (s : Slot K Value (l + 1)) (level : Nat) :
    SplitFits layout (c.fixKeys s) level ↔ SplitFits layout c level := by
  induction c generalizing level with
  | top => rfl
  | up f c ih =>
      rw [Ctx.fixKeys_up]
      unfold SplitFits Ctx.above
      split
      · rw [ih]
      · rfl

theorem splitFits_above (f : Frame K Value l) (c : Ctx K Value (l + 1)) (s : Slot K Value (l + 1))
    (level : Nat) : SplitFits layout (Ctx.above f c s) level ↔ SplitFits layout c level := by
  unfold Ctx.above
  split
  · exact splitFits_fixKeys c _ level
  · rfl

structure SplitStep (layout : NodeLayout) (t t' : PersistentTree K B) (others : Ptr → Nat) (c : Ctx K Value l)
    (s : Slot K Value (l + 1)) (w : Twins K Value l) (left right : Slot K Value (l + 1)) :
    Prop where
  left_eq : left = .node s.addr (s.entries.take (s.entries.length / 2))
  right_eq : right = .node t.nodes.next (s.entries.drop (s.entries.length / 2))
  grown : Grown layout.nodeSize c left right w
  holds : Holds t' others (w.plug left right)
  writes : WritesTo (s.addr :: c.path) t t'
  refs : ∀ x, t'.refsOf x = t.refsOf x + newRefs t t' x
  addrs : ∀ p ∈ rootAddrs (w.plug left right), p ∈ rootAddrs (c.plug s) ∨ t.nodes.next ≤ p
  path : ∀ p ∈ w.addr :: w.ctx.path, p ∈ c.path ∨ t.nodes.next ≤ p
  kept : ∀ p, p ∈ s.addr :: c.path ∨ t.nodes.next ≤ p ∧ p < t'.nodes.next →
    p ∈ rootAddrs (w.plug left right)

theorem rootAddrs_attach {f : Frame K Value l} {c : Ctx K Value (l + 1)} {s r : Slot K Value (l + 1)}
    {p : Nat} : p ∈ rootAddrs ((f.attach c s r).plug s r) ↔
      p ∈ Lib.addrs (l + 1) r ∨ p ∈ rootAddrs ((Ctx.up f c).plug s) := by
  have hctx : p ∈ rootAddrs ((f.attach c s r).plug s r) ↔
      p ∈ rootAddrs (c.plug ((f.attach c s r).parent s r)) := by
    unfold Twins.plug Frame.attach
    dsimp only
    split
    · exact rootAddrs_fixKeys _ _ _ p
    · rfl
  have hperm := (addrsOf_insert f.left f.right (f.key, s) (lastKey r.entries, r)).mem_iff (a := p)
  have hentries : ((f.attach c s r).parent s r).entries
      = f.left ++ (f.key, s) :: (lastKey r.entries, r) :: f.right := rfl
  have haddr : ((f.attach c s r).parent s r).addr = f.addr := rfl
  rw [hctx, Ctx.plug, mem_rootAddrs_plug, mem_rootAddrs_plug, hentries, haddr, hperm,
    List.mem_append, Frame.addr_plug, Frame.entries_plug]
  tauto

/-- The first part of a split below the root: the halves, and the key of the left one. -/
theorem splitKey_spec {f : Frame K Value l} {c : Ctx K Value (l + 1)} {s : Slot K Value (l + 1)}
    (h : Holds t others ((Ctx.up f c).plug s)) (n : Nat) :
    let left : Slot K Value (l + 1) := .node s.addr (s.entries.take n)
    let tree := (Ctx.up { f with key := lastKey left.entries } (Ctx.above f c left)).plug left
    let t₁ := (t.createNode 0 (content l (s.entries.drop n))).setBody s.addr
      (content l (s.entries.take n))
    t₁.bodyAt f.addr = some (.branch (f.pointersAt s.addr)) ∧
    ∃ t', (t₁.setBody f.addr (.branch
        (pointers f.left ++ (lastKey left.entries, s.addr) :: pointers f.right))).updateKeysUp
          (f.addr :: c.path) f.left.length = some t' ∧
      Holds t' others tree ∧ Spare t' tree (.node t.nodes.next (s.entries.drop n)) ∧
      WritesTo (s.addr :: f.addr :: c.path) t t' ∧ (∀ x, t'.refsOf x = t.refsOf x) ∧
      t'.nodes.next = t.nodes.next + 1 ∧
      ∀ p ∈ rootAddrs tree, p ∈ rootAddrs ((Ctx.up f c).plug s) := by
  intro left tree t₁
  obtain ⟨h₁, hspare₁, hwrites₁, hrefs₁⟩ := splitNode_spec h n
  obtain ⟨t', hrun, h', hwrites, hrefs, hnext, -⟩ := setKey_spec h₁
  have htree : ∀ p, p ∈ rootAddrs tree ↔ p ∈ rootAddrs ((Ctx.up f c).plug left) :=
    rootAddrs_fixKeys (Ctx.up f c) left left
  refine ⟨h₁.bodyAt_parent, t', hrun, h', ?_, ?_, ?_, ?_, ?_⟩
  · refine hspare₁.transfer hwrites ?_ (fun p hp => Or.inl ((htree p).mp hp)) (hrefs _)
    exact fun p hp => path_subset_rootAddrs (Ctx.up f c) left p (List.mem_cons_of_mem _ hp)
  · refine (hwrites₁.mono fun p hp => ?_).trans (hwrites.mono fun p hp => ?_)
    · exact List.mem_cons.mpr (Or.inl (List.mem_singleton.mp hp))
    · exact List.mem_cons_of_mem _ hp
  · exact fun x => (hrefs x).trans (hrefs₁ x)
  · exact hnext
  · intro p hp
    rw [htree, (rootAddrs_plug _ _).mem_iff] at hp
    rw [(rootAddrs_plug _ _).mem_iff]
    rcases List.mem_append.mp hp with hp | hp
    · exact List.mem_append_left _ (addrs_take_subset s n p hp)
    · exact List.mem_append_right _ hp

/-- The last part of a split below the root: the parent, which has room, takes the right half in. -/
theorem SplitStep.of_attach (t₃ t₄ : PersistentTree K B) {t₅ : PersistentTree K B} {f f' : Frame K Value l}
    {c c' : Ctx K Value (l + 1)} {s left right : Slot K Value (l + 1)}
    (hleft : left = .node s.addr (s.entries.take (s.entries.length / 2)))
    (hright : right = .node t.nodes.next (s.entries.drop (s.entries.length / 2)))
    (hgrown : Grown layout.nodeSize (Ctx.up f c) left right (f'.attach c' left right))
    (hnext₃ : t₃.nodes.next = t.nodes.next + 1)
    (hrefs₃ : ∀ x, t₃.refsOf x = t.refsOf x)
    (hwrites₄ : WritesTo (s.addr :: f.addr :: c.path) t t₄)
    (hrefs₄ : ∀ x, t₄.refsOf x = t₃.refsOf x + newRefs t₃ t₄ x)
    (haddrs₄ : ∀ p ∈ rootAddrs ((Ctx.up f' c').plug left),
      p ∈ rootAddrs ((Ctx.up f c).plug s) ∨ t.nodes.next ≤ p)
    (hnext₄ : t₃.nodes.next ≤ t₄.nodes.next)
    (hkept₄ : ∀ p, p ∈ f.addr :: c.path ∨ t₃.nodes.next ≤ p ∧ p < t₄.nodes.next →
      p ∈ rootAddrs ((Ctx.up f' c').plug left))
    (h₅ : Holds t₅ others ((f'.attach c' left right).plug left right))
    (hwrites₅ : WritesTo (f'.addr :: c'.path) t₄ t₅)
    (hpath : ∀ p ∈ f'.addr :: c'.path, p ∈ f.addr :: c.path ∨ t.nodes.next ≤ p)
    (hrefs₅ : ∀ x, t₅.refsOf x = t₄.refsOf x + if x = .node right.addr then 1 else 0)
    (hnext₅ : t₅.nodes.next = t₄.nodes.next) :
    SplitStep layout t t₅ others (Ctx.up f c) s (f'.attach c' left right) left right := by
  refine ⟨hleft, hright, hgrown, h₅, ⟨by have := hwrites₄.1; omega, ?_⟩, ?_, ?_, ?_, ?_⟩
  · intro p hp hne
    rw [hwrites₅.2 p (lt_of_lt_of_le hp hwrites₄.1) ?_, hwrites₄.2 p hp hne]
    intro hmem
    rcases hpath p hmem with hold | hnew
    · exact hne (List.mem_cons_of_mem _ hold)
    · omega
  · intro x
    rw [hrefs₅, hrefs₄, hrefs₃, hright]
    cases x with
    | block b => simp [newRefs]
    | node p =>
        simp only [newRefs, Slot.addr_node, Ptr.node.injEq]
        split_ifs <;> omega
  · intro p hp
    rcases rootAddrs_attach.mp hp with hp | hp
    · rw [hright] at hp
      rcases addrs_drop_subset s _ _ p hp with hp | rfl
      · exact Or.inl ((rootAddrs_plug _ _).mem_iff.mpr (List.mem_append_left _ hp))
      · exact Or.inr le_rfl
    · exact haddrs₄ p hp
  · intro p hp
    rw [Frame.path_attach] at hp
    exact hpath p hp
  · intro p hp
    rw [rootAddrs_attach]
    by_cases hnew : p = t.nodes.next
    · refine Or.inl ?_
      rw [hnew, hright]
      exact List.mem_cons_self
    · refine Or.inr ?_
      rcases hp with hp | ⟨hle, hlt⟩
      · rcases List.mem_cons.mp hp with rfl | hp
        · refine path_subset_rootAddrs (Ctx.up f' c') left _ ?_
          rw [hleft]
          exact List.mem_cons_self
        · exact hkept₄ p (Or.inl hp)
      · exact hkept₄ p (Or.inr ⟨by omega, by omega⟩)

/-- A split of the root makes a new root above the two halves. -/
theorem splitRoot_spec {s : Slot K Value (l + 1)}
    (h : Holds t others ((Ctx.top : Ctx K Value l).plug s)) {level : Nat}
    (hfits : level + 2 ≤ pathSize) :
    ∃ t' w left right, t.splitPath layout level [s.addr]
        = some (t', s.addr :: w.addr :: w.ctx.path, t.nodes.next :: w.addr :: w.ctx.path) ∧
      SplitStep layout t t' others .top s w left right ∧
      level + w.ctx.path.length + 1 < pathSize := by
  obtain ⟨h₁, hspare₁, hwrites₁, hrefs₁⟩ := splitNode_spec h (s.entries.length / 2)
  obtain ⟨b, hb⟩ := Rep.exists_content h₁.rep h₁.root_mem
  obtain ⟨rootNode, hrootNode, -⟩ := read_of_bodyAt hb
  obtain ⟨t₂, t₃, t₄, ht₂, ht₃, ht₄, h₄, hwrites₄, hrefs₄, hnext₄⟩ :=
    growRoot_spec layout h₁ hspare₁ rootNode.metadata
  obtain ⟨node, hnode, hbody⟩ := read_of_bodyAt h.bodyAt_node
  refine ⟨t₄, _, _, _, ?_, ⟨rfl, rfl, .root _, h₄, ?_, ?_, ?_, ?_, ?_⟩, hfits⟩
  · simp only [Slot.addr_node] at ht₂ ht₃
    simp only [splitPath, hnode, Option.bind_eq_bind, Option.bind_some, hbody, splitTo_content,
      size_content, hrootNode, ht₂, ht₃, guard, hfits, if_true, Option.pure_def, ht₄]
    rfl
  · refine (hwrites₁.mono fun p hp => ?_).trans (hwrites₄.mono fun p hp => ?_)
    · exact List.mem_cons.mpr (Or.inl (List.mem_singleton.mp hp))
    · cases hp
  · intro x
    rw [hrefs₄, hrefs₁]
    cases x with
    | block b => simp [newRefs]
    | node p =>
        rw [next_setBody, next_createNode] at hnext₄
        simp only [newRefs, Slot.addr_node, Ptr.node.injEq, hnext₄, next_setBody,
          next_createNode]
        split_ifs <;> omega
  · intro p hp
    rcases List.mem_cons.mp hp with rfl | hp
    · exact Or.inr (Nat.le_succ _)
    · obtain ⟨e, he, hp⟩ := List.mem_flatMap.mp hp
      rcases List.mem_cons.mp he with rfl | he
      · exact Or.inl (addrs_take_subset s _ p hp)
      · obtain rfl := List.mem_singleton.mp he
        rcases addrs_drop_subset s _ _ p hp with hp | rfl
        · exact Or.inl hp
        · exact Or.inr le_rfl
  · intro p hp
    obtain rfl := List.mem_singleton.mp hp
    exact Or.inr (Nat.le_succ _)
  · intro p hp
    rw [next_setBody, next_createNode] at hnext₄
    have hcases : p = s.addr ∨ p = t.nodes.next ∨ p = t.nodes.next + 1 := by
      rcases hp with hp | hp
      · exact Or.inl (List.mem_singleton.mp hp)
      · exact Or.inr (by omega)
    rcases hcases with rfl | rfl | rfl
    · exact List.mem_cons_of_mem _ (List.mem_append_left _ List.mem_cons_self)
    · refine List.mem_cons_of_mem _ (List.mem_append_right _ ?_)
      exact List.mem_append_left _ List.mem_cons_self
    · exact List.mem_cons_self

/-- `split_path`, by induction on the length of the path: the keys of the path change before the
parent is split, so the context of the parent is not a part of the old one. -/
theorem splitPath_spec (n : Nat) {c : Ctx K Value l} (hn : c.path.length = n)
    {s : Slot K Value (l + 1)} (h : Holds t others (c.plug s)) {level : Nat}
    (hfits : SplitFits layout c level) (hheight : level + c.path.length < pathSize) :
    ∃ t' w left right, t.splitPath layout level (s.addr :: c.path)
        = some (t', s.addr :: w.addr :: w.ctx.path, t.nodes.next :: w.addr :: w.ctx.path) ∧
      SplitStep layout t t' others c s w left right ∧
      level + w.ctx.path.length + 1 < pathSize := by
  induction n generalizing l t level with
  | zero =>
      cases c with
      | up f c => simp [Ctx.path] at hn
      | top => exact splitRoot_spec h hfits
  | succ n ih =>
      cases c with
      | top => simp [Ctx.path] at hn
      | up f c =>
          let left : Slot K Value (l + 1) := .node s.addr (s.entries.take (s.entries.length / 2))
          let right : Slot K Value (l + 1) :=
            .node t.nodes.next (s.entries.drop (s.entries.length / 2))
          let f' : Frame K Value l := { f with key := lastKey left.entries }
          let c' := Ctx.above f c left
          obtain ⟨hparent, t₃, ht₃, h₃, hspare₃, hwrites₃, hrefs₃, hnext₃, haddrs₃⟩ :=
            splitKey_spec h (s.entries.length / 2)
          obtain ⟨node, hnode, hbody⟩ := read_of_bodyAt h.bodyAt_node
          have hlen : (f.pointersAt s.addr).length = f.left.length + f.right.length + 1 := by
            simp [Frame.pointersAt]
            omega
          rw [Slot.entries_node] at ht₃
          by_cases hroom : f.left.length + f.right.length + 1 < layout.nodeSize
          · obtain ⟨t₄, t₅, ht₄, ht₅, h₅, hwrites₅, hrefs₅, hnext₅⟩ :=
              attach_spec layout (f := f') (c := c') h₃ hspare₃ hroom
            refine ⟨t₅, f'.attach c' left right, left, right, ?_, ?_, ?_⟩
            · have hctx : (f'.attach c' left right).ctx.path = c.path := by
                rw [Frame.path_attach, Ctx.path_above]
              rw [hctx]
              simp only [c', Ctx.path_above] at ht₅
              simp only [f', Slot.addr_node] at ht₄
              simp only [Ctx.path, splitPath, hnode, Option.bind_eq_bind, Option.bind_some, hbody,
                splitTo_content, size_content, branchEntries_of_bodyAt hparent, h.findChildNode,
                modify_pointersAt, maxKey_content, hlen, hroom, if_true, ht₃, ht₄]
              rw [ht₅]
              rfl
            · refine SplitStep.of_attach t₃ t₃ rfl rfl (.fits hroom) hnext₃ hrefs₃
                hwrites₃ ?_ ?_ le_rfl ?_ h₅ hwrites₅ ?_ hrefs₅ hnext₅
              · intro x
                cases x with
                | block b => simp [newRefs]
                | node p =>
                    simp only [newRefs]
                    split_ifs <;> omega
              · exact fun p hp => Or.inl (haddrs₃ p hp)
              · rintro p (hp | hp)
                · refine path_subset_rootAddrs (Ctx.up f' c') left p (List.mem_cons_of_mem _ ?_)
                  simp only [Ctx.path, c', Ctx.path_above]
                  exact hp
                · omega
              · intro p hp
                rw [Ctx.path_above] at hp
                exact Or.inl hp
            · rw [Frame.path_attach, Ctx.path_above]
              simp only [Ctx.path, List.length_cons] at hheight
              omega
          · obtain ⟨hfull, hfits⟩ := hfits.resolve_left hroom
            have htwo := layout.two_le_nodeSize
            have hes : (f'.plug left).entries.length = layout.nodeSize := by
              rw [← hfull]
              simp [f']
              omega
            obtain ⟨t₄, w, pleft, pright, ht₄, hstep, hheight₄⟩ :=
              ih (c := c') (s := f'.plug left) (by simpa [c', Ctx.path] using hn) h₃
                ((splitFits_above f c left _).mpr hfits)
                (by simp only [c', Ctx.path_above, Ctx.path, List.length_cons] at hheight ⊢; omega)
            obtain ⟨hleft, hright, hgrown, h₄, hwrites₄, hrefs₄, haddrs₄, hpath₄, hkept₄⟩ := hstep
            simp only [c', Ctx.path_above, Frame.addr_plug] at hkept₄
            rw [hes] at hleft hright
            have hspare₄ : Spare t₄ (w.plug pleft pright) right := by
              refine hspare₃.transfer hwrites₄ ?_ haddrs₄ ?_
              · exact path_subset_rootAddrs c' (f'.plug left)
              · rw [hrefs₄]
                simp [newRefs, hnext₃]
            have hwrites₄' : WritesTo (s.addr :: f.addr :: c.path) t t₄ := by
              refine hwrites₃.trans (hwrites₄.mono fun p hp => ?_)
              simp only [c', Ctx.path_above] at hp
              exact List.mem_cons_of_mem _ hp
            have haddrs₄' : ∀ p ∈ rootAddrs (w.plug pleft pright),
                p ∈ rootAddrs ((Ctx.up f c).plug s) ∨ t.nodes.next ≤ p := by
              intro p hp
              rcases haddrs₄ p hp with hp | hp
              · exact Or.inl (haddrs₃ p hp)
              · exact Or.inr (by omega)
            have hsizeNode : (t₄.nodes.read f.addr).map (fun p => p.body.size)
                = some (layout.nodeSize / 2) := by
              have hbody₄ := Holds.bodyAt_node (c := w.first pright) h₄
              rw [hleft] at hbody₄
              obtain ⟨n₄, hn₄, hb₄⟩ := read_of_bodyAt hbody₄
              rw [Slot.addr_node, Frame.addr_plug] at hn₄
              rw [hn₄, Option.map_some, hb₄, size_content, Slot.entries_node, List.length_take, hes]
              congr 1
              omega
            have hpath₄' : ∀ p ∈ w.addr :: w.ctx.path, p ∈ f.addr :: c.path ∨ t.nodes.next ≤ p := by
              intro p hp
              rcases hpath₄ p hp with hp | hp
              · simp only [c', Ctx.path_above] at hp
                exact Or.inl (List.mem_cons_of_mem _ hp)
              · exact Or.inr (by omega)
            by_cases hside : layout.nodeSize / 2 ≤ f.left.length
            · let f₂ : Frame K Value l :=
                ⟨t₃.nodes.next, f.left.drop (layout.nodeSize / 2), lastKey left.entries, f.right⟩
              have hpleft : pleft = .node f.addr (f.left.take (layout.nodeSize / 2)) := by
                rw [hleft, Frame.entries_plug, List.take_append_of_le_length hside]
                rfl
              have hpright : pright = f₂.plug left := by
                rw [hright, Frame.entries_plug, List.drop_append_of_le_length hside]
                rfl
              have htree : (Ctx.up f₂ (w.second pleft)).plug left = w.plug pleft pright := by
                rw [hpright, ← w.plug_second]
                rfl
              rw [← htree] at h₄ hspare₄ haddrs₄' hkept₄
              obtain ⟨t₅, t₆, ht₅, ht₆, h₆, hwrites₆, hrefs₆, hnext₆⟩ :=
                attach_spec layout h₄ hspare₄
                  (by simp only [f₂, List.length_drop]; omega)
              have hgrown' : Grown layout.nodeSize (Ctx.up f c) left right
                  (f₂.attach (w.second pleft) left right) := by
                rw [hpleft]
                rw [hpleft, hpright] at hgrown
                refine .inRight (List.take_append_drop _ f.left).symm ?_
                  (by rw [List.length_drop]; omega) hgrown
                simp only [ne_eq, List.take_eq_nil_iff, not_or]
                refine ⟨by omega, fun hnil => ?_⟩
                rw [hnil, List.length_nil] at hside
                omega
              refine ⟨t₆, f₂.attach (w.second pleft) left right, left, right, ?_, ?_, ?_⟩
              · have hidx : f₂.left.length = f.left.length - layout.nodeSize / 2 :=
                  List.length_drop
                have hctx : (f₂.attach (w.second pleft) left right).ctx.path
                    = w.addr :: w.ctx.path := by rw [Frame.path_attach, Twins.path_second]
                rw [hctx]
                rw [hidx] at ht₅ ht₆
                simp only [f₂, right, Slot.addr_node] at ht₅
                simp only [c', Ctx.path_above, Frame.addr_plug, f'] at ht₄
                simp only [Ctx.path, splitPath, hnode, Option.bind_eq_bind, Option.bind_some, hbody,
                  splitTo_content, size_content, branchEntries_of_bodyAt hparent, h.findChildNode,
                  modify_pointersAt, maxKey_content, hlen, hroom, if_false, ht₃, ht₄, hsizeNode,
                  hside, if_true, List.head?_cons, List.tail_cons, ht₅]
                rw [Twins.path_second] at ht₆
                rw [ht₆]
                rfl
              · refine SplitStep.of_attach t₃ t₄ rfl rfl hgrown' hnext₃ hrefs₃ hwrites₄' hrefs₄ haddrs₄'
                  hwrites₄.1 hkept₄ h₆ hwrites₆ ?_ hrefs₆ hnext₆
                intro p hp
                rcases List.mem_cons.mp hp with rfl | hp
                · exact Or.inr (by simp only [f₂]; omega)
                · exact hpath₄' p hp
              · rw [Frame.path_attach, Twins.path_second, List.length_cons]
                omega
            · let right₁ := f.right.take (layout.nodeSize / 2 - f.left.length - 1)
              let right₂ := f.right.drop (layout.nodeSize / 2 - f.left.length - 1)
              let f₂ : Frame K Value l := ⟨f.addr, f.left, lastKey left.entries, right₁⟩
              have hshort : f'.left.length ≤ layout.nodeSize / 2 := by
                simp only [f']
                omega
              have hcons : layout.nodeSize / 2 - f.left.length
                  = layout.nodeSize / 2 - f.left.length - 1 + 1 := by omega
              have hpleft : pleft = f₂.plug left := by
                rw [hleft, Frame.entries_plug, List.take_append, List.take_of_length_le hshort,
                  hcons, List.take_succ_cons]
                rfl
              have hpright : pright = .node t₃.nodes.next right₂ := by
                rw [hright, Frame.entries_plug, List.drop_append, List.drop_of_length_le hshort,
                  hcons, List.drop_succ_cons]
                rfl
              have htree : (Ctx.up f₂ (w.first pright)).plug left = w.plug pleft pright := by
                rw [hpleft, ← w.plug_first]
                rfl
              rw [← htree] at h₄ hspare₄ haddrs₄' hkept₄
              obtain ⟨t₅, t₆, ht₅, ht₆, h₆, hwrites₆, hrefs₆, hnext₆⟩ :=
                attach_spec layout h₄ hspare₄
                  (by simp only [f₂, right₁, List.length_take]; omega)
              have hgrown' : Grown layout.nodeSize (Ctx.up f c) left right
                  (f₂.attach (w.first pright) left right) := by
                rw [hpright]
                rw [hpleft, hpright] at hgrown
                refine .inLeft (List.take_append_drop _ f.right).symm ?_
                  (by rw [List.length_take]; omega) hgrown
                simp only [right₂, ne_eq, List.drop_eq_nil_iff]
                omega
              refine ⟨t₆, f₂.attach (w.first pright) left right, left, right, ?_, ?_, ?_⟩
              · have hctx : (f₂.attach (w.first pright) left right).ctx.path
                    = w.addr :: w.ctx.path := by rw [Frame.path_attach, Twins.path_first]
                rw [hctx]
                simp only [f₂, right, Slot.addr_node] at ht₅
                simp only [c', Ctx.path_above, Frame.addr_plug, f'] at ht₄
                simp only [Ctx.path, splitPath, hnode, Option.bind_eq_bind, Option.bind_some, hbody,
                  splitTo_content, size_content, branchEntries_of_bodyAt hparent, h.findChildNode,
                  modify_pointersAt, maxKey_content, hlen, hroom, if_false, ht₃, ht₄, hsizeNode,
                  hside, List.tail_cons, ht₅]
                rw [Twins.path_first] at ht₆
                rw [ht₆]
                rfl
              · refine SplitStep.of_attach t₃ t₄ rfl rfl hgrown' hnext₃ hrefs₃ hwrites₄' hrefs₄ haddrs₄'
                  hwrites₄.1 hkept₄ h₆ hwrites₆ ?_ hrefs₆ hnext₆
                intro p hp
                rcases List.mem_cons.mp hp with rfl | hp
                · exact Or.inl List.mem_cons_self
                · exact hpath₄' p hp
              · rw [Frame.path_attach, Twins.path_first, List.length_cons]
                omega

end Split

end Memoria.PersistentTree

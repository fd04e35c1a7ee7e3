import Memoria.Lib.MergeTree
import Memoria.Proof.TreeKeys

/-!
# Merging two paths

The nodes of two neighbouring paths, both owned, are merged from the common ancestor down. The right
node of every pair is released, and so is a root that is left with one child.
-/

namespace Memoria.PersistentTree

open Lib

variable {K B : Type} {t t' : PersistentTree K B} {others : Ptr → Nat} {l : Nat}

theorem mergeFrom_content (es es' : List (K × Slot K Value l)) :
    Body.mergeFrom (content l es) (content l es') = some (content l (es ++ es')) := by
  cases l with
  | zero => rfl
  | succ l => simp [Body.mergeFrom, content]

def restAddrs (w : Twins K Value l) (s r : Slot K Value (l + 1)) : List Nat :=
  addrsOf w.left ++ (addrsOf s.entries ++ (addrsOf r.entries ++
    (addrsOf w.right ++ (w.ctx.path ++ w.ctx.siblingAddrs))))

theorem rootAddrs_twins (w : Twins K Value l) (s r : Slot K Value (l + 1)) :
    (rootAddrs (w.plug s r)).Perm (w.addr :: s.addr :: r.addr :: restAddrs w s r) := by
  refine (rootAddrs_plug w.ctx (w.parent s r)).trans ?_
  refine List.Perm.cons _ ?_
  have hentries : (w.parent s r).entries = w.left ++ (w.key, s) :: (w.key', r) :: w.right := rfl
  change (addrsOf (w.parent s r).entries ++ _).Perm _
  rw [hentries]
  simp only [addrsOf_append, addrsOf_cons, addrs_node, List.append_assoc, List.cons_append]
  refine List.perm_middle.trans (List.Perm.cons _ ?_)
  rw [← List.append_assoc]
  refine List.perm_middle.trans (List.Perm.cons _ ?_)
  rw [List.append_assoc]
  exact List.Perm.refl _

theorem addrs_joined (w : Twins K Value l) (s r : Slot K Value (l + 1)) (k : K) :
    (w.addr :: addrsOf (w.left ++ (k, join s r) :: w.right) ++
      (w.ctx.path ++ w.ctx.siblingAddrs)).Perm (w.addr :: s.addr :: restAddrs w s r) := by
  simp only [addrsOf_append, addrsOf_cons, addrs_node, addr_join, entries_join, List.append_assoc,
    List.cons_append]
  exact List.Perm.cons _ (List.perm_middle.trans (List.Perm.cons _ (List.Perm.refl _)))

section Merge

variable [Inhabited K] {layout : NodeLayout}

omit [Inhabited K] in
/-- Only the parent's slot for the right node has gone. -/
theorem slots_absorb {w : Twins K Value l} {s r : Slot K Value (l + 1)} {k : K}
    (hs : t.bodyAt s.addr = some (content l s.entries))
    (hr : t.bodyAt r.addr = some (content l r.entries))
    (hw : t.bodyAt w.addr = some (content (l + 1) (w.parent s r).entries))
    (hrs : r.addr ≠ s.addr) (hws : w.addr ≠ s.addr) (hwr : w.addr ≠ r.addr) (x : Ptr) :
    (((t.setBody s.addr (content l (join s r).entries)).removeNode r.addr).setBody w.addr
        (.branch (pointers (w.left ++ (k, join s r) :: w.right)))).slots x
      + (if x = .node r.addr then 1 else 0) = t.slots x := by
  have hset := slots_setBody hs (content l (join s r).entries) x
  rw [entries_join, ptrs_content_append, List.count_append] at hset
  have hr₁ : (t.setBody s.addr (content l (join s r).entries)).bodyAt r.addr
      = some (content l r.entries) := by
    rw [bodyAt_setBody_of_ne _ hrs, hr]
  have hremove := slots_removeNode hr₁ x
  have hw₁ : ((t.setBody s.addr (content l (join s r).entries)).removeNode r.addr).bodyAt w.addr
      = some (content (l + 1) (w.parent s r).entries) := by
    rw [bodyAt_removeNode, if_neg hwr, bodyAt_setBody_of_ne _ hws, hw]
  have hparent := slots_setBody hw₁ (.branch (pointers (w.left ++ (k, join s r) :: w.right))) x
  have hcount : (ptrs (content (l + 1) (w.parent s r).entries)).count x
      = (ptrs (.branch (pointers (w.left ++ (k, join s r) :: w.right)) : Body K)).count x
        + if x = .node r.addr then 1 else 0 := by
    simp only [content_succ, Twins.parent, Slot.entries_node, ptrs, pointers_append, pointers_cons,
      List.map_append, List.map_cons, List.count_append, List.count_cons, addr_join, beq_iff_eq,
      eq_comm (b := x)]
    omega
  simp only [entries_join] at hremove hparent ⊢
  omega

/-- The right node goes into the left one and leaves the parent. -/
theorem absorb_spec {w : Twins K Value l} {s r : Slot K Value (l + 1)}
    (h : Holds t others (w.plug s r)) (hr : t.refsOf (.node r.addr) = 1) :
    let k := lastKey (join s r).entries
    let t₁ := ((t.setBody s.addr (content l (join s r).entries)).removeNode r.addr).setBody w.addr
      (.branch (pointers (w.left ++ (k, join s r) :: w.right)))
    Holds t₁ others ((Ctx.up { w.frame with key := k } w.ctx).plug (join s r)) ∧
      (∀ p, p ≠ s.addr → p ≠ r.addr → p ≠ w.addr → t₁.bodyAt p = t.bodyAt p) ∧
      t₁.bodyAt r.addr = none ∧
      ∀ x, t₁.refsOf x = if x = .node r.addr then 0 else t.refsOf x := by
  intro k t₁
  have hplug : Holds t others ((w.second s).plug r) := by
    rw [w.plug_second]
    exact h
  have hs := Holds.bodyAt_node (c := w.first r) h
  have hrb := hplug.bodyAt_node
  have hw := Holds.bodyAt_node (c := w.ctx) (s := w.parent s r) h
  have hnodup := (rootAddrs_twins w s r).nodup_iff.mp h.nodup
  have hnodup' : (w.addr :: s.addr :: restAddrs w s r).Nodup :=
    hnodup.sublist (((List.sublist_cons_self _ _).cons_cons _).cons_cons _)
  simp only [List.nodup_cons, List.mem_cons, not_or] at hnodup
  obtain ⟨⟨hws, hwr, hwrest⟩, ⟨hsr, hsrest⟩, hrrest, -⟩ := hnodup
  have hbody : ∀ q, t₁.bodyAt q
      = if q = w.addr then some (.branch (pointers (w.left ++ (k, join s r) :: w.right)))
        else if q = r.addr then none
        else if q = s.addr then some (content l (join s r).entries) else t.bodyAt q := by
    intro q
    simp only [t₁, bodyAt_setBody, bodyAt_removeNode]
    by_cases hqw : q = w.addr
    · subst hqw
      have hw' : t.bodyAt w.addr = some (content (l + 1) (w.parent s r).entries) := hw
      simp [hwr, hws, hw']
    · by_cases hqs : q = s.addr
      · subst hqs
        simp [hqw, hs]
      · simp [hqw, hqs]
  have hrest : ∀ q ∈ restAddrs w s r, t₁.bodyAt q = t.bodyAt q := by
    intro q hq
    rw [hbody, if_neg (by rintro rfl; exact hwrest hq), if_neg (by rintro rfl; exact hrrest hq),
      if_neg (by rintro rfl; exact hsrest hq)]
  have hrefs : ∀ x, t₁.refsOf x = if x = .node r.addr then 0 else t.refsOf x := by
    intro x
    simp only [t₁, refsOf_setBody, refsOf_removeNode]
  refine ⟨?_, ?_, ?_, hrefs⟩
  · have hup : Holds t others (w.ctx.plug (w.parent s r)) := h
    change Holds t₁ others
      (w.ctx.plug (.node (w.parent s r).addr (w.left ++ (k, join s r) :: w.right)))
    refine hup.setEntries ?_ rfl ?_ ?_ ?_ ?_ ?_
    · exact (addrs_joined w s r k).nodup_iff.mpr hnodup'
    · exact (hbody w.addr).trans (if_pos rfl)
    · have hrep := (rep_node.mp ((repRoot_plug w.ctx (w.parent s r)).mp h.rep).1).2
      simp only [Twins.parent, Slot.entries_node, repOf_append, repOf_cons] at hrep
      obtain ⟨hleft, ⟨-, hse⟩, ⟨-, hre⟩, hright⟩ := hrep
      have hmem : ∀ q, q ∈ addrsOf w.left ∨ q ∈ addrsOf s.entries ∨ q ∈ addrsOf r.entries ∨
          q ∈ addrsOf w.right → t₁.bodyAt q = t.bodyAt q := by
        intro q hq
        refine hrest q ?_
        simp only [restAddrs, List.mem_append]
        tauto
      simp only [repOf_append, repOf_cons]
      refine ⟨hleft.congr fun q hq => hmem q (by tauto), ⟨?_, ?_⟩,
        hright.congr fun q hq => hmem q (by tauto)⟩
      · rw [addr_join, hbody, if_neg (Ne.symm hws), if_neg hsr, if_pos rfl]
      · exact repOf_append.mpr ⟨RepOf.congr hse fun q hq => hmem q (by tauto),
          RepOf.congr hre fun q hq => hmem q (by tauto)⟩
    · intro q hq
      refine hrest q ?_
      simp only [restAddrs, List.mem_append] at hq ⊢
      tauto
    · intro x
      have hslots : t₁.slots x + (if x = .node r.addr then 1 else 0) = t.slots x :=
        slots_absorb hs hrb hw (Ne.symm hsr) hws hwr x
      rw [hrefs]
      split_ifs at hslots ⊢ with hx
      · rw [hx] at hslots ⊢
        omega
      · omega
    · have hroot : t.root ∈ w.addr :: w.ctx.path :=
        List.mem_of_getLast? (Holds.getLast_path (c := w.ctx) (s := w.parent s r) h)
      have hne : t.root ≠ r.addr := by
        intro heq
        rcases List.mem_cons.mp (heq ▸ hroot) with heq | hmem
        · exact hwr heq.symm
        · exact hrrest (by simp [restAddrs, hmem])
      rw [hrefs, if_neg (by simpa using hne), h.owned]
  · intro q hqs hqr hqw
    rw [hbody, if_neg hqw, if_neg hqr, if_neg hqs]
  · rw [hbody, if_neg (Ne.symm hwr), if_pos rfl]

omit [Inhabited K] in
theorem refsOf_modify_metadata (t : PersistentTree K B) (p : Nat) (metadata : Int) (x : Ptr) :
    PersistentTree.refsOf { t with
      nodes := t.nodes.modify p fun n => { n with metadata := metadata } } x = t.refsOf x := by
  cases x with
  | block b => rfl
  | node q =>
      simp only [refsOf, Heap.read_modify]
      split
      · cases t.nodes.read q <;> rfl
      · rfl

structure MergeStep (t t' : PersistentTree K B) (others : Ptr → Nat) (path : List Nat)
    (tree : Root K Value) : Prop where
  holds : Holds t' others tree
  next : t'.nodes.next = t.nodes.next
  writes : ∀ p, p ∉ path → t'.bodyAt p = t.bodyAt p
  dead : ∀ p, t.bodyAt p = none → t'.bodyAt p = none
  refs : ∀ x, t'.refsOf x = t.refsOf x ∨ ∃ p, x = .node p ∧ t'.bodyAt p = none

omit [Inhabited K] in
/-- A root with one child is replaced by it. -/
theorem collapse_spec {p : Nat} {k : K} {s : Slot K Value (l + 1)}
    (h : Holds t others ((Ctx.up ⟨p, [], k, []⟩ .top).plug s))
    (hs : t.refsOf (.node s.addr) = 1) :
    ∃ root t₁ t₂ n, t.nodes.read p = some root ∧
      ({ t with nodes := t.nodes.modify s.addr fun n => { n with metadata := root.metadata } } :
        PersistentTree K B).setRoot s.addr = some t₁ ∧
      t₁.unrefNode s.addr = some t₂ ∧ (t₂.removeNode p).nodes.read s.addr = some n ∧ n.refs = 1 ∧
      MergeStep t (t₂.removeNode p) others [p] (Ctx.top.plug s) := by
  have hroot : t.root = p := h.root
  have hparent := h.bodyAt_parent
  have hbody := h.bodyAt_node
  have hnodup := h.nodup_at
  have hps : p ≠ s.addr := by
    rintro rfl
    refine List.disjoint_of_nodup_append hnodup (a := s.addr) List.mem_cons_self ?_
    exact List.mem_append_left _ List.mem_cons_self
  obtain ⟨root, hread, -⟩ := read_of_bodyAt hparent
  let t₀ : PersistentTree K B :=
    { t with nodes := t.nodes.modify s.addr fun n => { n with metadata := root.metadata } }
  have hsame₀ : SameBodies t t₀ := sameBodies_of_modify t s.addr fun _ => rfl
  have hrefs₀ : ∀ x, t₀.refsOf x = t.refsOf x := refsOf_modify_metadata t s.addr root.metadata
  have howned := h.owned
  rw [hroot] at howned
  obtain ⟨t₁, ht₁, hbody₁, hroot₁, hnext₁, hslots₁, hrefs₁⟩ :=
    setRoot_spec (t := t₀) (p := s.addr) (b := content l s.entries)
      (by
        rw [hrefs₀]
        change 0 < t.refsOf (.node t.root)
        rw [hroot, howned]
        exact Int.one_pos)
      (by rw [hsame₀.body, hbody])
  have hroot₀ : t₀.root = p := hroot
  rw [hroot₀] at hrefs₁
  have hs₁ : t₁.refsOf (.node s.addr) = 2 := by
    have := hrefs₁ (.node s.addr)
    rw [hrefs₀, hs] at this
    simpa [Ne.symm hps] using this
  obtain ⟨t₂, ht₂, hsame₂, hrefs₂⟩ := unrefNode_spec (t := t₁) (p := s.addr) (by omega)
  have hbodies : ∀ q, (t₂.removeNode p).bodyAt q = if q = p then none else t.bodyAt q := by
    intro q
    rw [bodyAt_removeNode, hsame₂.body, hbody₁, hsame₀.body]
  have hrefs : ∀ x, (t₂.removeNode p).refsOf x = if x = .node p then 0 else t.refsOf x := by
    intro x
    have := hrefs₁ x
    rw [refsOf_removeNode, hrefs₂]
    rw [hrefs₀] at this
    split_ifs at this ⊢ <;> omega
  obtain ⟨n, hn, -⟩ := read_of_bodyAt (show (t₂.removeNode p).bodyAt s.addr = some _ by
    rw [hbodies, if_neg (Ne.symm hps), hbody])
  have hone : (t₂.removeNode p).refsOf (.node s.addr) = 1 := by
    rw [hrefs, if_neg (by simpa using Ne.symm hps), hs]
  refine ⟨root, t₁, t₂, n, hread, ht₁, ht₂, hn, ?_, ⟨?_, ?_, ?_, ?_, ?_⟩, ?_, ?_, ?_, ?_⟩
  · simp only [refsOf, hn, Option.elim_some] at hone
    omega
  · refine Rep.congr ((repRoot_plug _ s).mp h.rep).1 ?_
    intro q hq
    rw [hbodies, if_neg]
    rintro rfl
    exact List.disjoint_of_nodup_append hnodup hq (List.mem_append_left _ List.mem_cons_self)
  · exact (List.nodup_append.mp hnodup).1
  · exact hsame₂.root.trans hroot₁
  · intro x
    have hbal := h.balanced x
    have hslots : (t₂.removeNode p).slots x + (if x = .node s.addr then 1 else 0)
        = t.slots x := by
      have hp₂ : t₂.bodyAt p = some (.branch [(k, s.addr)]) := by
        rw [hsame₂.body, hbody₁, hsame₀.body]
        exact hparent
      have hremove := slots_removeNode hp₂ x
      rw [hsame₂.slots, hslots₁, hsame₀.slots] at hremove
      simp only [ptrs, List.map_cons, List.map_nil, List.count_singleton, beq_iff_eq,
        eq_comm (b := x)] at hremove
      exact hremove
    have hbalp := h.balanced (.node p)
    rw [howned] at hbalp
    simp only [withRoot, hroot, if_true] at hbal hbalp
    rw [hrefs]
    simp only [withRoot, root_removeNode, hsame₂.root, hroot₁]
    by_cases hxp : x = .node p
    · subst hxp
      have hne : Ptr.node p ≠ .node s.addr := by simpa using hps
      rw [if_neg hne] at hslots
      rw [if_pos rfl, if_neg hne]
      omega
    · rw [if_neg hxp] at hbal ⊢
      split_ifs at hslots ⊢ <;> omega
  · rw [root_removeNode, hsame₂.root, hroot₁]
    exact hone
  · rw [next_removeNode, hsame₂.next, hnext₁, hsame₀.next]
  · intro q hq
    rw [hbodies, if_neg]
    rintro rfl
    exact hq List.mem_cons_self
  · intro q hq
    rw [hbodies]
    split
    · rfl
    · exact hq
  · intro x
    by_cases hxp : x = .node p
    · refine Or.inr ⟨p, hxp, ?_⟩
      rw [hbodies, if_pos rfl]
    · refine Or.inl ?_
      rw [hrefs, if_neg hxp]

omit [Inhabited K] in
theorem MergeStep.trans {t'' : PersistentTree K B} {path : List Nat} {tree tree' : Root K Value}
    (h : MergeStep t t' others path tree) (h' : MergeStep t' t'' others path tree') :
    MergeStep t t'' others path tree' := by
  refine ⟨h'.holds, h'.next.trans h.next, ?_, ?_, ?_⟩
  · intro p hp
    rw [h'.writes p hp, h.writes p hp]
  · exact fun p hp => h'.dead p (h.dead p hp)
  · intro x
    rcases h'.refs x with heq' | hdead'
    · rcases h.refs x with heq | ⟨p, rfl, hdead⟩
      · exact Or.inl (heq'.trans heq)
      · exact Or.inr ⟨p, rfl, h'.dead p hdead⟩
    · exact Or.inr hdead'

omit [Inhabited K] in
theorem MergeStep.mono {path path' : List Nat} {tree : Root K Value}
    (h : MergeStep t t' others path tree) (hsub : ∀ p ∈ path, p ∈ path') :
    MergeStep t t' others path' tree :=
  ⟨h.holds, h.next, fun p hp => h.writes p fun hmem => hp (hsub p hmem), h.dead, h.refs⟩

omit [Inhabited K] in
/-- The parent is the root if nothing is above it. -/
theorem Holds.addr_eq_root_iff {c : Ctx K Value l} {s : Slot K Value (l + 1)}
    (h : Holds t others (c.plug s)) : s.addr = t.root ↔ c.path = [] := by
  have hlast := h.getLast_path
  cases hpath : c.path with
  | nil =>
      rw [hpath] at hlast
      simpa using hlast
  | cons p ps =>
      rw [hpath, List.getLast?_cons_cons] at hlast
      simp only [reduceCtorEq, iff_false]
      intro heq
      have hmem : s.addr ∈ c.path := by
        rw [hpath, heq]
        exact List.mem_of_getLast? hlast
      exact List.disjoint_of_nodup_append h.nodup_at (a := s.addr) List.mem_cons_self
        (List.mem_append_left _ hmem)

/-- One level of a merge. -/
theorem mergeNodes_spec {w : Twins K Value l} {s r : Slot K Value (l + 1)}
    (h : Holds t others (w.plug s r)) (hs : t.refsOf (.node s.addr) = 1)
    (hr : t.refsOf (.node r.addr) = 1)
    (hsize : s.entries.length + r.entries.length ≤ layout.nodeSize) :
    ∃ t', t.mergeNodes layout s.addr r.addr (w.addr :: w.ctx.path)
        = some (t', (w.merge s r).path) ∧
      MergeStep t t' others (s.addr :: r.addr :: w.addr :: w.ctx.path)
        ((w.merge s r).plug (join s r)) := by
  have hplug : Holds t others ((w.second s).plug r) := by
    rw [w.plug_second]
    exact h
  obtain ⟨n, hn, hnb⟩ := read_of_bodyAt (Holds.bodyAt_node (c := w.first r) h)
  obtain ⟨n', hn', hnb'⟩ := read_of_bodyAt hplug.bodyAt_node
  have hparent : t.bodyAt w.addr = some (.branch (pointers
      (w.left ++ (w.key, s) :: (w.key', r) :: w.right))) :=
    Holds.bodyAt_node (c := w.ctx) (s := w.parent s r) h
  have hfind : findChildNode (pointers (w.left ++ (w.key, s) :: (w.key', r) :: w.right)) s.addr
      = some w.left.length := by
    have := Holds.findChildNode (f := ⟨w.addr, w.left, w.key, (w.key', r) :: w.right⟩)
      (c := w.ctx) (s := s) h
    simpa [Frame.pointersAt] using this
  have hentries : ((pointers (w.left ++ (w.key, s) :: (w.key', r) :: w.right)).modify w.left.length
      fun e => (lastKey (join s r).entries, e.2)).eraseIdx (w.left.length + 1)
      = pointers (w.left ++ (lastKey (join s r).entries, join s r) :: w.right) := by
    simp only [pointers_append, pointers_cons]
    rw [← length_pointers w.left, modify_append_cons, eraseIdx_append_cons]
    rfl
  have hnodup := (rootAddrs_twins w s r).nodup_iff.mp h.nodup
  simp only [List.nodup_cons, List.mem_cons, not_or] at hnodup
  obtain ⟨⟨hws, hwr, -⟩, ⟨hsr, -⟩, hrrest, -⟩ := hnodup
  have hrctx : r.addr ∉ w.ctx.path := fun hmem => hrrest (by simp [restAddrs, hmem])
  obtain ⟨h₁, hbody₁, hdead₁, hrefs₁⟩ := absorb_spec h hr
  obtain ⟨t₂, hrun₂, h₂, hwrites₂, hrefs₂, -, hnext₂, hroot₂⟩ :=
    updateKeysUp_spec (c := w.ctx) h₁ w.left.length
  have h₂' : Holds t₂ others (((Ctx.up w.frame w.ctx).fixKeys (join s r)).plug (join s r)) := by
    have hiff : (Frame.plug { w.frame with key := lastKey (join s r).entries }
        (join s r)).entries.length ≤ w.left.length + 1 ↔ w.frame.right.isEmpty = true := by
      simp [Twins.frame, List.isEmpty_iff, ← List.length_eq_zero_iff]
    rw [Ctx.fixKeys_up]
    unfold Ctx.above
    simp only [hiff] at h₂
    exact h₂
  have hnext : t₂.nodes.next = t.nodes.next := hnext₂
  have hwrites : ∀ p, p ∉ s.addr :: r.addr :: w.addr :: w.ctx.path →
      t₂.bodyAt p = t.bodyAt p := by
    intro p hp
    simp only [List.mem_cons, not_or] at hp
    rcases Nat.lt_or_ge p t.nodes.next with hlt | hge
    · rw [hwrites₂.2 p hlt hp.2.2.2, hbody₁ p hp.1 hp.2.1 hp.2.2.1]
    · rw [bodyAt_of_next_le hge, bodyAt_of_next_le (hnext ▸ hge)]
  have hdead₂ : t₂.bodyAt r.addr = none := by
    have hlt : r.addr < t.nodes.next := lt_next_of_bodyAt hplug.bodyAt_node
    rw [hwrites₂.2 r.addr hlt hrctx, hdead₁]
  have hstep₂ : MergeStep t t₂ others (s.addr :: r.addr :: w.addr :: w.ctx.path)
      (((Ctx.up w.frame w.ctx).fixKeys (join s r)).plug (join s r)) := by
    refine ⟨h₂', hnext, hwrites, ?_, ?_⟩
    · intro p hp
      rw [hwrites p]
      · exact hp
      · intro hmem
        have hlive : p ∈ rootAddrs (w.plug s r) := by
          refine (rootAddrs_twins w s r).mem_iff.mpr ?_
          simp only [List.mem_cons, restAddrs, List.mem_append] at hmem ⊢
          tauto
        obtain ⟨b, hb⟩ := Rep.exists_content h.rep hlive
        rw [hb] at hp
        cases hp
    · intro x
      rw [hrefs₂, hrefs₁]
      split
      · rename_i hx
        exact Or.inr ⟨r.addr, hx, hdead₂⟩
      · exact Or.inl rfl
  have hroot : w.addr = t₂.root ↔ w.ctx.path = [] := by
    have hpath := Holds.addr_eq_root_iff (c := w.ctx) (s := w.parent s r) h
    rw [hroot₂]
    exact hpath
  have hlen : (pointers (w.left ++ (lastKey (join s r).entries, join s r) :: w.right)).length = 1 ↔
      w.left = [] ∧ w.right = [] := by
    simp only [length_pointers, List.length_append, List.length_cons,
      ← List.length_eq_zero_iff]
    omega
  have hrun : t.mergeNodes layout s.addr r.addr (w.addr :: w.ctx.path)
      = if w.Alone then do
          let root ← t₂.nodes.read w.addr
          let t := { t₂ with
            nodes := t₂.nodes.modify s.addr fun n => { n with metadata := root.metadata } }
          let t ← t.setRoot s.addr
          let t ← t.unrefNode s.addr
          let t := t.removeNode w.addr
          let n ← t.nodes.read s.addr
          guard (n.refs = 1)
          some (t, [])
        else
          some (t₂, w.addr :: w.ctx.path) := by
    have hidx : w.left.length + 1 <
        (pointers (w.left ++ (w.key, s) :: (w.key', r) :: w.right)).length := by
      simp
    have halone : (w.addr = t₂.root ∧ w.left = [] ∧ w.right = []) ↔ w.Alone := by
      rw [hroot]
      rfl
    simp only [mergeNodes, List.head?_cons, Option.bind_eq_bind, Option.bind_some,
      branchEntries_of_bodyAt hparent, hfind, hn, hn', hnb, hnb', mergeFrom_content, size_content,
      maxKey_content, guard]
    rw [if_pos (by rw [List.length_append]; exact hsize), if_pos hidx]
    simp only [Option.pure_def, Option.bind_some, entries_join] at hentries hrun₂ ⊢
    rw [hentries]
    simp only [Frame.addr_plug, Twins.frame] at hrun₂
    rw [hrun₂]
    simp only [Option.bind_some]
    rw [entries_join] at hlen
    simp only [hlen, halone]
  by_cases halone : w.Alone
  · obtain ⟨hctx, hleft, hright⟩ := id halone
    have hfix : (Ctx.up w.frame w.ctx).fixKeys (join s r)
        = .up ⟨w.addr, [], lastKey (join s r).entries, []⟩ .top := by
      rw [Ctx.eq_top_of_path hctx, Ctx.fixKeys_up]
      simp [Twins.frame, hleft, hright, Ctx.above, Ctx.fixKeys]
    rw [hfix] at h₂' hstep₂
    have hs₂ : t₂.refsOf (.node s.addr) = 1 := by
      rw [hrefs₂, hrefs₁, if_neg (by simpa using hsr), hs]
    obtain ⟨root, t₃, t₄, n₄, hroot₃, ht₃, ht₄, hn₄, hone, hstep₄⟩ := collapse_spec h₂' hs₂
    refine ⟨t₄.removeNode w.addr, ?_, ?_⟩
    · rw [hrun, if_pos halone, Twins.merge, if_pos halone]
      rw [addr_join] at ht₃ ht₄ hn₄
      simp only [hroot₃, ht₃, ht₄, hn₄, hone, guard, Option.bind_eq_bind, Option.bind_some, if_true,
        Option.pure_def]
      rfl
    · rw [Twins.merge, if_pos halone]
      refine hstep₂.trans (hstep₄.mono ?_)
      intro p hp
      obtain rfl := List.mem_singleton.mp hp
      simp
  · refine ⟨t₂, ?_, ?_⟩
    · rw [hrun, if_neg halone, Twins.merge, if_neg halone, Ctx.path_fixKeys]
      rfl
    · rw [Twins.merge, if_neg halone]
      exact hstep₂

omit [Inhabited K] in
theorem Holds.addr_ne {g : Fork K Value l} {s r : Slot K Value (l + 1)}
    (h : Holds t others (g.plug s r)) : s.addr ≠ r.addr := by
  intro heq
  have hfirst : Holds t others ((g.first r).plug s) := by
    rw [g.plug_first]
    exact h
  refine List.disjoint_of_nodup_append hfirst.nodup_at (a := s.addr) List.mem_cons_self ?_
  refine List.mem_append_right _ (g.addrs_subset_first r _ ?_)
  rw [heq]
  exact List.mem_cons_self

/-- Two nodes that this tree has to itself become one, and so do their parents up to the node above
both. -/
theorem mergePaths_spec {g : Fork K Value l} {s r : Slot K Value (l + 1)}
    (h : Holds t others (g.plug s r)) (hs : Owned t (s.addr :: g.path))
    (hr : Owned t (r.addr :: g.path')) (hmerge : g.CanMerge layout.nodeSize s r) :
    ∃ t', t.mergePaths layout (s.addr :: g.path) (r.addr :: g.path')
        = some (t', s.addr :: (g.merge s r).path) ∧
      MergeStep t t' others ((s.addr :: g.path) ++ (r.addr :: g.path'))
        ((g.merge s r).plug (join s r)) := by
  induction g generalizing t with
  | joint w =>
      obtain ⟨t', hrun, hstep⟩ := mergeNodes_spec h (hs _ List.mem_cons_self)
        (hr _ List.mem_cons_self) hmerge
      refine ⟨t', ?_, hstep.mono ?_⟩
      · simp only [Fork.path, Fork.path', mergePaths, if_true, hrun, Option.bind_eq_bind,
          Option.bind_some]
        rfl
      · intro p hp
        simp only [Fork.path, Fork.path', List.mem_cons, List.mem_append] at hp ⊢
        tauto
  | apart q left key q' key' right g ih =>
      let s' : Slot K Value _ := .node q (left ++ [(key, s)])
      let r' : Slot K Value _ := .node q' ((key', r) :: right)
      have hne : q ≠ q' := Holds.addr_ne (g := g) (s := s') (r := r') h
      obtain ⟨t₁, hrun₁, hstep₁⟩ := ih (s := s') (r := r') h
        (fun p hp => hs p (List.mem_cons_of_mem _ hp))
        (fun p hp => hr p (List.mem_cons_of_mem _ hp)) hmerge.2
      let w : Twins K Value _ := ⟨q, left, key, key', right, g.merge s' r'⟩
      have hparent : w.parent s r = join s' r' := by
        simp [Twins.parent, join, s', r', w]
      have h₁ : Holds t₁ others (w.plug s r) := by
        rw [Twins.plug, hparent]
        exact hstep₁.holds
      have hlive : ∀ p ∈ rootAddrs (w.plug s r), t.refsOf (.node p) = 1 →
          t₁.refsOf (.node p) = 1 := by
        intro p hp hone
        rcases hstep₁.refs (.node p) with heq | ⟨p', heq, hdead⟩
        · rw [heq, hone]
        · obtain ⟨b, hb⟩ := Rep.exists_content h₁.rep hp
          cases heq
          rw [hb] at hdead
          cases hdead
      have hmem : s.addr ∈ rootAddrs (w.plug s r) ∧ r.addr ∈ rootAddrs (w.plug s r) := by
        constructor <;> exact (rootAddrs_twins w s r).mem_iff.mpr (by simp)
      obtain ⟨t₂, hrun₂, hstep₂⟩ := mergeNodes_spec h₁
        (hlive _ hmem.1 (hs _ List.mem_cons_self)) (hlive _ hmem.2 (hr _ List.mem_cons_self))
        hmerge.1
      have hstep₁' : MergeStep t t₁ others ((q :: g.path) ++ (q' :: g.path')) (w.plug s r) := by
        rw [Twins.plug, hparent]
        exact hstep₁
      refine ⟨t₂, ?_, (hstep₁'.mono ?_).trans (hstep₂.mono ?_)⟩
      · simp only [s', r', Slot.addr_node] at hrun₁
        simp only [Fork.path, Fork.path', mergePaths, hne, if_false, hrun₁, Option.bind_eq_bind,
          Option.bind_some]
        simp only [w] at hrun₂
        rw [hrun₂]
        rfl
      · intro p hp
        simp only [Fork.path, Fork.path', List.mem_cons, List.mem_append] at hp ⊢
        tauto
      · intro p hp
        have hsub := (g.path_merge_sublist s' r').subset (a := p)
        simp only [Fork.path, Fork.path', List.mem_cons, List.mem_append, w] at hp ⊢
        tauto

end Merge

end Memoria.PersistentTree

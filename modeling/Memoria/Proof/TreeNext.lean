import Memoria.Proof.TreeFind
import Memoria.Proof.TreeMerge

/-!
# Going from leaf to leaf

The leaves have no links, so that the iterator climbs to the first ancestor with a child on the other
side and descends from there.
-/

namespace Memoria.PersistentTree

open Lib

variable {K B : Type} {layout : NodeLayout} {t : PersistentTree K B} {others : Ptr → Nat} {l : Nat}

theorem getElem?_pointersAt_succ (f : Frame K Value l) (p : Nat) :
    (f.pointersAt p)[f.left.length + 1]? = (pointers f.right)[0]? := by
  unfold Frame.pointersAt
  rw [List.getElem?_append_right (by simp)]
  simp

theorem getElem?_pointersAt_pred {f : Frame K Value l} {left : List (K × Slot K Value (l + 1))}
    {e : K × Slot K Value (l + 1)} (hleft : f.left = left ++ [e]) (p : Nat) :
    (f.pointersAt p)[left.length]? = some (e.1, e.2.addr) := by
  unfold Frame.pointersAt
  rw [hleft, pointers_append, List.append_assoc, List.getElem?_append_right (by simp)]
  simp

/-- On the right edge there is no next node. -/
theorem getNextNode_none {c : Ctx K Value l} {s : Slot K Value (l + 1)}
    (h : Holds t others (c.plug s)) (htrail : c.trailOf = true) :
    t.getNextNode (s.addr :: c.path) = some none := by
  induction c with
  | top => rfl
  | up f c ih =>
      obtain ⟨hc, hempty⟩ := Bool.and_eq_true_iff.mp htrail
      rw [List.isEmpty_iff] at hempty
      have hupper : t.getNextNode (f.addr :: c.path) = some none := ih h hc
      simp only [Ctx.path, getNextNode, branchEntries_of_bodyAt h.bodyAt_parent, h.findChildNode,
        Option.bind_eq_bind, Option.bind_some, getElem?_pointersAt_succ, hempty, hupper]
      rfl

theorem getNextNode_fork {g : Fork K Value l} {s r : Slot K Value (l + 1)}
    (h : Holds t others (g.plug s r)) :
    t.getNextNode (s.addr :: g.path) = some (some (r.addr :: g.path')) := by
  have hfirst : Holds t others ((g.first r).plug s) := by
    rw [g.plug_first]
    exact h
  induction g with
  | joint w =>
      have hparent := Holds.bodyAt_parent
        (f := ⟨w.addr, w.left, w.key, (w.key', r) :: w.right⟩) (c := w.ctx) hfirst
      have hfind := Holds.findChildNode
        (f := ⟨w.addr, w.left, w.key, (w.key', r) :: w.right⟩) (c := w.ctx) hfirst
      have hget := getElem?_pointersAt_succ
        (⟨w.addr, w.left, w.key, (w.key', r) :: w.right⟩ : Frame K Value _) s.addr
      simp only [Fork.path, Fork.path', getNextNode, branchEntries_of_bodyAt hparent, hfind,
        Option.bind_eq_bind, Option.bind_some, hget]
      rfl
  | apart p left key p' key' right g ih =>
      have hparent := Holds.bodyAt_parent (f := ⟨p, left, key, []⟩)
        (c := g.first (.node p' ((key', r) :: right))) hfirst
      have hfind := Holds.findChildNode (f := ⟨p, left, key, []⟩)
        (c := g.first (.node p' ((key', r) :: right))) hfirst
      have hget := getElem?_pointersAt_succ (⟨p, left, key, []⟩ : Frame K Value _) s.addr
      have hupper := ih h hfirst
      have hnext : Holds t others ((g.second (.node p (left ++ [(key, s)]))).plug
          (.node p' ((key', r) :: right))) := by
        rw [g.plug_second]
        exact h
      have hbody : t.bodyAt p' = some (.branch (pointers ((key', r) :: right))) :=
        hnext.bodyAt_node
      simp only [Slot.addr_node] at hupper
      simp only [Fork.path, Fork.path', getNextNode, branchEntries_of_bodyAt hparent, hfind,
        Option.bind_eq_bind, Option.bind_some, hget]
      simp only [pointers_nil, List.getElem?_nil, hupper, Option.bind_some, List.head?_cons,
        branchEntries_of_bodyAt hbody, pointers_cons]

/-- On the left edge there is no previous node. -/
theorem getPrevNode_none {c : Ctx K Value l} {s : Slot K Value (l + 1)}
    (h : Holds t others (c.plug s)) (hedge : c.LeftEdge) :
    t.getPrevNode (s.addr :: c.path) = some none := by
  induction c with
  | top => rfl
  | up f c ih =>
      obtain ⟨hleft, hc⟩ := hedge
      have hupper : t.getPrevNode (f.addr :: c.path) = some none := ih h hc
      have hfind := h.findChildNode
      rw [hleft, List.length_nil] at hfind
      simp only [Ctx.path, getPrevNode, branchEntries_of_bodyAt h.bodyAt_parent, hfind,
        Option.bind_eq_bind, Option.bind_some, hupper]

theorem getPrevNode_fork {g : Fork K Value l} {s r : Slot K Value (l + 1)}
    (h : Holds t others (g.plug s r)) :
    t.getPrevNode (r.addr :: g.path') = some (some (s.addr :: g.path)) := by
  have hsecond : Holds t others ((g.second s).plug r) := by
    rw [g.plug_second]
    exact h
  induction g with
  | joint w =>
      have hparent := Holds.bodyAt_parent
        (f := ⟨w.addr, w.left ++ [(w.key, s)], w.key', w.right⟩) (c := w.ctx) hsecond
      have hfind := Holds.findChildNode
        (f := ⟨w.addr, w.left ++ [(w.key, s)], w.key', w.right⟩) (c := w.ctx) hsecond
      have hget := getElem?_pointersAt_pred (f := ⟨w.addr, w.left ++ [(w.key, s)], w.key', w.right⟩)
        rfl r.addr
      rw [List.length_append, List.length_singleton] at hfind
      simp only [Fork.path, Fork.path', getPrevNode, branchEntries_of_bodyAt hparent, hfind,
        Option.bind_eq_bind, Option.bind_some, hget]
  | apart p left key p' key' right g ih =>
      have hparent := Holds.bodyAt_parent (f := ⟨p', [], key', right⟩)
        (c := g.second (.node p (left ++ [(key, s)]))) hsecond
      have hfind := Holds.findChildNode (f := ⟨p', [], key', right⟩)
        (c := g.second (.node p (left ++ [(key, s)]))) hsecond
      have hupper := ih h hsecond
      have hprev : Holds t others ((g.first (.node p' ((key', r) :: right))).plug
          (.node p (left ++ [(key, s)]))) := by
        rw [g.plug_first]
        exact h
      have hbody : t.bodyAt p = some (.branch (pointers (left ++ [(key, s)]))) :=
        hprev.bodyAt_node
      simp only [Slot.addr_node] at hupper
      rw [List.length_nil] at hfind
      simp only [Fork.path, Fork.path', getPrevNode, branchEntries_of_bodyAt hparent, hfind,
        Option.bind_eq_bind, Option.bind_some, hupper, List.head?_cons,
        branchEntries_of_bodyAt hbody, pointers_append, pointers_cons, pointers_nil,
        List.getLast?_append, List.getLast?_singleton, Option.some_or]

theorem size_of_bodyAt {p : Nat} {es : List (K × Slot K Value l)}
    (hbody : t.bodyAt p = some (content l es)) : t.size p = some es.length := by
  obtain ⟨n, hn, hb⟩ := read_of_bodyAt hbody
  rw [PersistentTree.size, hn, Option.map_some, hb, size_content]

/-- The first pair of nodes decides if it is too large. -/
theorem canMergePaths_false {g : Fork K Value l} {s r : Slot K Value (l + 1)}
    (h : Holds t others (g.plug s r))
    (hsize : ¬ s.entries.length + r.entries.length ≤ layout.nodeSize) :
    t.canMergePaths layout (s.addr :: g.path) (r.addr :: g.path') = some false ∧
      ¬ g.CanMerge layout.nodeSize s r := by
  have hs := size_of_bodyAt (Holds.bodyAt_node (c := g.first r) (by rwa [g.plug_first]))
  have hr := size_of_bodyAt (Holds.bodyAt_node (c := g.second s) (by rwa [g.plug_second]))
  cases g <;> simp [Fork.path, Fork.path', canMergePaths, hs, hr, hsize, Fork.CanMerge]

/-- `can_merge_paths` checks the nodes on both paths up to the common parent, under which they
always stand side by side. -/
theorem canMergePaths_spec {g : Fork K Value l} {s r : Slot K Value (l + 1)}
    (h : Holds t others (g.plug s r)) :
    ∃ b, t.canMergePaths layout (s.addr :: g.path) (r.addr :: g.path') = some b ∧
      (b = true ↔ g.CanMerge layout.nodeSize s r) := by
  by_cases hsize : s.entries.length + r.entries.length ≤ layout.nodeSize
  case neg =>
      obtain ⟨hrun, hnot⟩ := canMergePaths_false h hsize
      exact ⟨false, hrun, by simp [hnot]⟩
  have hfirst : Holds t others ((g.first r).plug s) := by rwa [g.plug_first]
  have hsecond : Holds t others ((g.second s).plug r) := by rwa [g.plug_second]
  have hs := size_of_bodyAt hfirst.bodyAt_node
  have hr := size_of_bodyAt hsecond.bodyAt_node
  induction g with
  | joint w =>
      have hparent := Holds.bodyAt_parent
        (f := ⟨w.addr, w.left, w.key, (w.key', r) :: w.right⟩) (c := w.ctx) hfirst
      have hfind := Holds.findChildNode
        (f := ⟨w.addr, w.left, w.key, (w.key', r) :: w.right⟩) (c := w.ctx) hfirst
      have hfind' := Holds.findChildNode
        (f := ⟨w.addr, w.left ++ [(w.key, s)], w.key', w.right⟩) (c := w.ctx) hsecond
      have hpointers : Frame.pointersAt ⟨w.addr, w.left ++ [(w.key, s)], w.key', w.right⟩ r.addr
          = Frame.pointersAt ⟨w.addr, w.left, w.key, (w.key', r) :: w.right⟩ s.addr := by
        simp [Frame.pointersAt]
      rw [hpointers, List.length_append, List.length_singleton] at hfind'
      refine ⟨true, ?_, by simp [Fork.CanMerge, hsize]⟩
      simp only [Fork.path, Fork.path', canMergePaths, hs, hr, Option.bind_eq_bind,
        Option.bind_some, hsize, if_true, branchEntries_of_bodyAt hparent, hfind, hfind',
        Option.elim_some, decide_true]
  | apart p left key p' key' right g ih =>
      let s' : Slot K Value _ := .node p (left ++ [(key, s)])
      let r' : Slot K Value _ := .node p' ((key', r) :: right)
      have hne : p ≠ p' := Holds.addr_ne (g := g) (s := s') (r := r') h
      have hrun : t.canMergePaths layout (s.addr :: (Fork.apart p left key p' key' right g).path)
          (r.addr :: (Fork.apart p left key p' key' right g).path')
          = t.canMergePaths layout (s'.addr :: g.path) (r'.addr :: g.path') := by
        simp only [Fork.path, Fork.path', canMergePaths, hs, hr, Option.bind_eq_bind,
          Option.bind_some, hsize, if_true, hne, if_false]
        rfl
      have hiff : (Fork.apart p left key p' key' right g).CanMerge layout.nodeSize s r ↔
          g.CanMerge layout.nodeSize s' r' := by
        simp [Fork.CanMerge, hsize, s', r']
      rw [hrun, hiff]
      by_cases hsize' : s'.entries.length + r'.entries.length ≤ layout.nodeSize
      · have hfirst' : Holds t others ((g.first r').plug s') := by rwa [g.plug_first]
        have hsecond' : Holds t others ((g.second s').plug r') := by rwa [g.plug_second]
        exact ih h hsize' hfirst' hsecond' (size_of_bodyAt hfirst'.bodyAt_node)
          (size_of_bodyAt hsecond'.bodyAt_node)
      · obtain ⟨hfalse, hnot⟩ := canMergePaths_false (g := g) (s := s') (r := r') h hsize'
        exact ⟨false, hfalse, by simp [hnot]⟩

section Traverse

variable [Inhabited K] [LinearOrder K]

/-- The leftmost leaf, by induction on the levels below. -/
theorem locateBeginIn_spec {c : Ctx K Value l} {s : Slot K Value (l + 1)}
    (h : Holds t others (c.plug s)) (hvalid : Valid (c.plug s)) (hbefore : c.before = [])
    {fuel : Nat} (hfuel : l < fuel) :
    ∃ (c' : Ctx K Value 0) (s' : Slot K Value 1), c'.plug s' = c.plug s ∧ c'.before = [] ∧
      t.locateBeginIn fuel s.addr c.path = some ⟨s'.addr :: c'.path, 0⟩ := by
  obtain ⟨fuel, rfl⟩ := Nat.exists_eq_succ_of_ne_zero (by omega : fuel ≠ 0)
  induction l generalizing fuel with
  | zero =>
      obtain ⟨n, hn, hbody⟩ := read_of_bodyAt h.bodyAt_node
      have hleaf : n.body = .leaf s.bindings := hbody
      refine ⟨c, s, rfl, hbefore, ?_⟩
      simp only [locateBeginIn, hn, Option.bind_eq_bind, Option.bind_some, hleaf]
  | succ l ih =>
      obtain ⟨n, hn, hbody⟩ := read_of_bodyAt h.bodyAt_node
      obtain ⟨hx, -⟩ := (valid_plug_iff c s).mp hvalid
      obtain ⟨e, es, hes⟩ :=
        List.exists_cons_of_ne_nil (hx.entries_ne_nil (Or.inr (Nat.succ_ne_zero l)))
      have hbranch : n.body = .branch (pointers s.entries) := hbody
      let f : Frame K Value l := ⟨s.addr, [], e.1, es⟩
      have hplug : (Ctx.up f c).plug e.2 = c.plug s := by
        rw [Ctx.plug, Frame.plug]
        simp only [f, List.nil_append]
        rw [← hes, Slot.node_eta]
      rw [← hplug] at h hvalid ⊢
      obtain ⟨fuel, rfl⟩ := Nat.exists_eq_succ_of_ne_zero (by omega : fuel ≠ 0)
      obtain ⟨c', s', hplug', hbefore', hrun⟩ := ih h hvalid (by simp [Ctx.before, f, hbefore])
        fuel (by omega)
      refine ⟨c', s', hplug', hbefore', ?_⟩
      rw [locateBeginIn]
      simp only [hn, Option.bind_eq_bind, Option.bind_some, hbranch, hes, pointers_cons,
        List.head?_cons, Option.map_some]
      exact hrun

/-- The loop over the rest of a leaf and all leaves after it. -/
theorem traverse_spec {c : Ctx K Value 0} {s : Slot K Value 1} (h : Holds t others (c.plug s))
    (hvalid : Valid (c.plug s)) {i : Nat}
    (hi : i < s.bindings.length ∨ i = s.bindings.length ∧ c.trailOf = true) {fuel : Nat}
    (hfuel : (s.bindings.drop i ++ c.after).length < fuel) :
    t.traverse fuel ⟨s.addr :: c.path, i⟩ = some (s.bindings.drop i ++ c.after) := by
  induction fuel generalizing c s i with
  | zero => omega
  | succ fuel ih =>
      have hleaf : t.leafEntries s.addr = some s.bindings := leafEntries_of_bodyAt h.bodyAt_node
      simp only [traverse, List.head?_cons, Option.bind_eq_bind, Option.bind_some, hleaf]
      rcases hi with hi | ⟨rfl, htrail⟩
      · rw [List.getElem?_eq_getElem hi]
        have hdrop : s.bindings.drop i = s.bindings[i] :: s.bindings.drop (i + 1) :=
          List.drop_eq_getElem_cons hi
        rw [hdrop, List.cons_append, List.length_cons] at hfuel
        rw [hdrop, List.cons_append]
        have hrest : ∃ iter, t.next ⟨s.addr :: c.path, i⟩ = some iter ∧
            t.traverse fuel iter = some (s.bindings.drop (i + 1) ++ c.after) := by
          simp only [next, List.head?_cons, Option.bind_eq_bind, Option.bind_some, hleaf]
          by_cases hnext : i + 1 < s.bindings.length
          · rw [if_pos hnext]
            exact ⟨_, rfl, ih h hvalid (Or.inl hnext) (by omega)⟩
          · rw [if_neg hnext]
            rcases exists_fork_behind (filled_plug.mp hvalid.filled).2 with htrail | ⟨g, r, hg, -⟩
            · rw [getNextNode_none h htrail]
              exact ⟨_, rfl, ih h hvalid (Or.inr ⟨by omega, htrail⟩) (by omega)⟩
            · rw [← hg, g.plug_first] at h hvalid
              have hrun := getNextNode_fork h
              rw [← g.plug_second] at h hvalid
              have hafter := g.after_first s r
              rw [hg, flatOf_leaf] at hafter
              have hend : s.bindings.drop (i + 1) = [] := List.drop_eq_nil_iff.mpr (by omega)
              obtain ⟨hx, -⟩ := (valid_plug_iff (g.second s) r).mp hvalid
              have hpath : (g.second s).path ≠ [] := by
                rw [g.path_second]
                exact g.path'_ne_nil
              have hpos : 0 < r.bindings.length :=
                List.length_pos_of_ne_nil (hx.entries_ne_nil (Or.inl hpath))
              have hstep := ih h hvalid (i := 0) (Or.inl hpos) (by
                rw [List.drop_zero, ← hafter]
                rw [hend] at hfuel
                simpa using hfuel)
              rw [List.drop_zero, ← hafter, g.path_second] at hstep
              rw [← hg, g.path_first, hrun, hend, List.nil_append]
              exact ⟨_, rfl, hg ▸ hstep⟩
        obtain ⟨iter, hiter, hrest⟩ := hrest
        simp only [hiter, Option.bind_some, hrest]
      · rw [List.getElem?_eq_none le_rfl, List.drop_length, Ctx.after_of_trailOf htrail]
        rfl

/-- The loop from the beginning visits all bindings of the tree in order. -/
theorem traverse_begin_spec {tree : Root K Value} (h : Holds t others tree) (hvalid : Valid tree)
    (hheight : tree.1 < pathSize) {fuel : Nat} (hfuel : (flatRoot tree).length < fuel) :
    ∃ iter, t.locateBegin = some iter ∧ t.traverse fuel iter = some (flatRoot tree) := by
  have hroot : t.root = tree.2.addr := h.root
  obtain ⟨c, s, hplug, hbefore, hrun⟩ := locateBeginIn_spec (c := (.top : Ctx K Value tree.1))
    (s := tree.2) h hvalid rfl hheight
  have hplug' : c.plug s = tree := hplug
  have hflat : flatRoot tree = s.bindings ++ c.after := by
    rw [← hplug', flatRoot_plug, hbefore, flatOf_leaf, List.nil_append]
  rw [← hplug'] at h hvalid
  refine ⟨⟨s.addr :: c.path, 0⟩, ?_, ?_⟩
  · rw [locateBegin, hroot]
    exact hrun
  · rw [hflat] at hfuel ⊢
    refine traverse_spec h hvalid ?_ hfuel
    by_cases hempty : s.bindings = []
    · refine Or.inr ⟨by rw [hempty]; rfl, ?_⟩
      obtain ⟨hx, -⟩ := (valid_plug_iff c s).mp hvalid
      have hpath : c.path = [] := by
        by_contra hpath
        exact hx.entries_ne_nil (Or.inl hpath) hempty
      rw [Ctx.eq_top_of_path hpath]
      rfl
    · exact Or.inl (List.length_pos_of_ne_nil hempty)

end Traverse

end Memoria.PersistentTree

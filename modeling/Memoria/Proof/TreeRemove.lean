import Memoria.Lib.ForkPaths
import Memoria.Proof.TreeAssign
import Memoria.Proof.TreeMerge

/-!
# Removing a key

The leaf loses an entry, and is then merged with its neighbour if both are small enough. The path of
the neighbour is cloned for that if it is shared.
-/

namespace Memoria.PersistentTree

open Lib

variable {K B : Type} [LinearOrder K] [Inhabited K] {layout : NodeLayout} {key : K}
  {t t' : PersistentTree K B} {others : Ptr → Nat}

section Merge

variable {g : Fork K Value 0} {s r : Slot K Value 1}

omit [LinearOrder K] [Inhabited K] in
theorem Holds.first (h : Holds t others (g.plug s r)) : Holds t others ((g.first r).plug s) := by
  rw [g.plug_first]
  exact h

omit [LinearOrder K] [Inhabited K] in
theorem Holds.second (h : Holds t others (g.plug s r)) : Holds t others ((g.second s).plug r) := by
  rw [g.plug_second]
  exact h

omit [LinearOrder K] [Inhabited K] in
/-- The two paths are written to, and nobody else has nodes of them. -/
theorem MergeStep.keeps {tree : Root K Value}
    (hstep : MergeStep t t' others ((s.addr :: g.path) ++ (r.addr :: g.path')) tree)
    (h : Holds t others (g.plug s r)) (hs : Owned t (s.addr :: g.path))
    (hr : Owned t (r.addr :: g.path')) : Keeps others t t' := by
  have hfirst := h.first
  have hsecond := h.second
  rw [← g.path_first r] at hs
  rw [← g.path_second s] at hr
  rw [← g.path_first r, ← g.path_second s] at hstep
  refine ⟨?_, ?_⟩
  · intro l s' hext hrep
    refine hrep.congr fun p hp => hstep.writes p ?_
    intro hmem
    rcases List.mem_append.mp hmem with hmem | hmem
    · exact hfirst.not_mem_other hs (hfirst.not_mem_of_ext hs hext) hrep p hmem hp
    · exact hsecond.not_mem_other hr (hsecond.not_mem_of_ext hr hext) hrep p hmem hp
  · intro p hext hone
    obtain ⟨b, hb⟩ := exists_body_of_refs (by omega : t.refsOf (.node p) ≠ 0)
    rcases hstep.refs (.node p) with heq | ⟨q, heq, hdead⟩
    · exact heq.trans hone
    · cases heq
      have hnot : p ∉ (s.addr :: (g.first r).path) ++ (r.addr :: (g.second s).path) := by
        rw [List.mem_append, not_or]
        exact ⟨hfirst.not_mem_of_ext hs hext, hsecond.not_mem_of_ext hr hext⟩
      rw [hstep.writes p hnot, hb] at hdead
      cases hdead

structure Ordered (g : Fork K Value 0) (s r s₀ r₀ : Slot K Value 1) : Prop where
  loose : g.Loose
  valid : g.ValidAt s₀ r₀
  ne_nil : s.bindings ++ r.bindings ≠ []
  chain : Chain (VSlot 0) g.trailOf g.loOf (join s r).entries
  last : g.trailOf = false → lastKey (join s r).entries ≤ lastKey r₀.entries

theorem Ordered.valid_merge {s₀ r₀ : Slot K Value 1} (h : Ordered g s r s₀ r₀) :
    Valid ((g.merge s r).plug (join s r)) :=
  (valid_plug_iff _ _).mpr
    ⟨h.valid.merge s r s.addr h.ne_nil h.chain h.last, h.loose.keysAt_merge s r⟩

theorem Ordered.withRight {s₀ : Slot K Value 1} (h : Ordered g s r s₀ r) (p : Nat) (ps : List Nat) :
    Ordered (g.withRight ps) s (.leaf p r.bindings) s₀ (.leaf p r.bindings) := by
  have halike : Alike r (.leaf p r.bindings) := .of_entries rfl
  refine ⟨h.loose.withRight ps, h.valid.withRight halike ps, h.ne_nil, ?_, ?_⟩
  · rw [g.trailOf_withRight, g.loOf_withRight]
    exact h.chain
  · rw [g.trailOf_withRight]
    exact h.last

theorem Ordered.withLeft {r₀ : Slot K Value 1} (h : Ordered g s r s r₀) (p : Nat) (ps : List Nat) :
    Ordered (g.withLeft ps) (.leaf p s.bindings) r (.leaf p s.bindings) r₀ := by
  have halike : Alike s (.leaf p s.bindings) := .of_entries rfl
  refine ⟨h.loose.withLeft ps, h.valid.withLeft halike ps, h.ne_nil, ?_, ?_⟩
  · rw [g.trailOf_withLeft, g.loOf_withLeft]
    exact h.chain
  · rw [g.trailOf_withLeft]
    exact h.last

omit [LinearOrder K] in
theorem Shaped.mergePaths (h : Shaped layout t others (g.plug s r))
    (hmerge : g.CanMerge layout.nodeSize s r) (hs : Owned t (s.addr :: g.path))
    (hr : Owned t (r.addr :: g.path')) :
    ∃ t' path, t.mergePaths layout (s.addr :: g.path) (r.addr :: g.path') = some (t', path) ∧
      Shaped layout t' others ((g.merge s r).plug (join s r)) ∧ Keeps others t t' := by
  obtain ⟨t', hrun, hstep⟩ := mergePaths_spec h.holds hs hr hmerge
  refine ⟨t', _, hrun, ⟨hstep.holds, ?_, ?_, ?_⟩, hstep.keeps h.holds hs hr⟩
  · exact Fork.sized_merge h.sized hmerge
  · exact Fork.filled_merge h.filled
  · have hheight := h.height
    have hlen := (g.path_merge_sublist s r).length_le
    rw [← g.plug_first, fst_plug, g.path_first] at hheight
    rw [fst_plug]
    omega

omit [LinearOrder K] [Inhabited K] in
theorem Holds.beside_first (h : Holds t others (g.plug s r)) (hroot : g.AtRoot) :
    ∀ p ∈ (r.addr :: g.path').dropLast, p ∉ s.addr :: (g.first r).path := by
  intro p hp hmem
  have hsibling := Fork.dropLast_subset_first hroot r p hp
  have hnodup := h.first.nodup_at
  rcases List.mem_cons.mp hmem with rfl | hmem
  · exact List.disjoint_of_nodup_append hnodup List.mem_cons_self (List.mem_append_right _ hsibling)
  · exact List.disjoint_of_nodup_append (List.nodup_append.mp hnodup).2.1 hmem hsibling

omit [LinearOrder K] [Inhabited K] in
theorem Holds.beside_second (h : Holds t others (g.plug s r)) (hroot : g.AtRoot) :
    ∀ p ∈ (s.addr :: g.path).dropLast, p ∉ r.addr :: (g.second s).path := by
  intro p hp hmem
  have hsibling := Fork.dropLast_subset_second hroot s p hp
  have hnodup := h.second.nodup_at
  rcases List.mem_cons.mp hmem with rfl | hmem
  · exact List.disjoint_of_nodup_append hnodup List.mem_cons_self (List.mem_append_right _ hsibling)
  · exact List.disjoint_of_nodup_append (List.nodup_append.mp hnodup).2.1 hmem hsibling

omit [LinearOrder K] [Inhabited K] in
/-- Both paths end in the root. -/
theorem getLast_of_cloned {c c' : Ctx K Value 0} {s s' : Slot K Value 1}
    (h : Holds t others (c.plug s)) (h' : Holds t' others (c'.plug s')) (hroot : t'.root = t.root)
    (hc : c.path ≠ []) (hc' : c'.path ≠ []) : c'.path.getLast? = c.path.getLast? := by
  have hlast := h.getLast_path
  have hlast' := h'.getLast_path
  rw [List.getLast?_cons_of_ne_nil hc] at hlast
  rw [List.getLast?_cons_of_ne_nil hc'] at hlast'
  rw [hlast, hlast', hroot]

/-- The path of the right leaf is made the tree's own. If it has to be cloned, it meets the other
one in the root only. -/
theorem Shaped.updateRight (h : Shaped layout t others (g.plug s r))
    (hmerge : g.CanMerge layout.nodeSize s r) (hs : Owned t (s.addr :: g.path))
    (hstale : g.AtRoot ∨ ∀ q ∈ (r.addr :: g.path').dropLast, t.refsOf (.node q) ≤ 1) :
    ∃ t' g' r', t.updatePath (r.addr :: g.path') = some (t', r'.addr :: g'.path') ∧
      g'.path = g.path ∧ Shaped layout t' others (g'.plug s r') ∧
      g'.CanMerge layout.nodeSize s r' ∧ flatRoot (g'.plug s r') = flatRoot (g.plug s r) ∧
      (∀ s₀, Ordered g s r s₀ r → Ordered g' s r' s₀ r') ∧
      Owned t' (s.addr :: g'.path) ∧ Owned t' (r'.addr :: g'.path') ∧ Keeps others t t' := by
  obtain ⟨t', p, ps, hrun, hlen, h', howned, hkeeps, hcases⟩ := updatePath_spec h.holds.second
  rw [g.path_second] at hrun hlen hcases
  rcases hcases with ⟨rfl, hpath⟩ | ⟨⟨q, hq, hshared⟩, hcloned⟩
  · rw [hpath] at hrun howned
    exact ⟨t', g, r, hrun, rfl, h, hmerge, rfl, fun _ ho => ho, hs, howned, hkeeps⟩
  · have hroot : g.AtRoot := by
      refine hstale.resolve_right fun hle => ?_
      have := hle q hq
      omega
    have hwith : ((g.second s).withPath ps).path = ps :=
      Ctx.path_withPath _ (by rw [hlen, g.path_second])
    have hps : ps ≠ [] := by
      rintro rfl
      exact g.path'_ne_nil (List.length_eq_zero_iff.mp hlen.symm)
    have hlast : ps.getLast? = g.path'.getLast? := by
      have := getLast_of_cloned h.holds.second h' hcloned.root
        (by rw [g.path_second]; exact g.path'_ne_nil) (by rw [hwith]; exact hps)
      rwa [hwith, g.path_second] at this
    have hsecond := Fork.second_withRight hroot hlen hlast s
    have hpath' : (g.withRight ps).path' = ps := by
      rw [← (g.withRight ps).path_second s, hsecond, hwith]
    let r' : Slot K Value 1 := .leaf p r.bindings
    have hplug : (g.withRight ps).plug s r' = ((g.second s).withPath ps).plug r' := by
      rw [← Fork.plug_second, hsecond]
    have hsecond' : Shaped layout t others ((g.second s).plug r) := by
      rw [g.plug_second]
      exact h
    refine ⟨t', g.withRight ps, r', ?_, g.path_withRight ps, ?_, ?_, ?_, ?_, ?_, ?_, hkeeps⟩
    · rw [hpath']
      exact hrun
    · rw [hplug]
      exact hsecond'.of_same (Ctx.same_withPath _ ps) rfl h'
    · have hlen' : r'.entries.length = r.entries.length := rfl
      exact ((g.same_withRight ps).canMerge rfl hlen').mpr hmerge
    · rw [hplug, ← g.plug_second, flatRoot_plug, flatRoot_plug, Ctx.before_withPath,
        Ctx.after_withPath]
      rfl
    · exact fun s₀ ho => ho.withRight p ps
    · rw [g.path_withRight, ← g.path_first r]
      exact hcloned.owned h.holds.first (by rw [g.path_first]; exact hs)
        (h.holds.beside_first hroot)
    · rw [hpath']
      exact howned

/-- The same for the left leaf. -/
theorem Shaped.updateLeft (h : Shaped layout t others (g.plug s r))
    (hmerge : g.CanMerge layout.nodeSize s r) (hr : Owned t (r.addr :: g.path'))
    (hstale : g.AtRoot ∨ ∀ q ∈ (s.addr :: g.path).dropLast, t.refsOf (.node q) ≤ 1) :
    ∃ t' g' s', t.updatePath (s.addr :: g.path) = some (t', s'.addr :: g'.path) ∧
      g'.path' = g.path' ∧ Shaped layout t' others (g'.plug s' r) ∧
      g'.CanMerge layout.nodeSize s' r ∧ flatRoot (g'.plug s' r) = flatRoot (g.plug s r) ∧
      (∀ r₀, Ordered g s r s r₀ → Ordered g' s' r s' r₀) ∧
      Owned t' (s'.addr :: g'.path) ∧ Owned t' (r.addr :: g'.path') ∧ Keeps others t t' := by
  obtain ⟨t', p, ps, hrun, hlen, h', howned, hkeeps, hcases⟩ := updatePath_spec h.holds.first
  rw [g.path_first] at hrun hlen hcases
  rcases hcases with ⟨rfl, hpath⟩ | ⟨⟨q, hq, hshared⟩, hcloned⟩
  · rw [hpath] at hrun howned
    exact ⟨t', g, s, hrun, rfl, h, hmerge, rfl, fun _ ho => ho, howned, hr, hkeeps⟩
  · have hroot : g.AtRoot := by
      refine hstale.resolve_right fun hle => ?_
      have := hle q hq
      omega
    have hwith : ((g.first r).withPath ps).path = ps :=
      Ctx.path_withPath _ (by rw [hlen, g.path_first])
    have hps : ps ≠ [] := by
      rintro rfl
      exact g.path_ne_nil (List.length_eq_zero_iff.mp hlen.symm)
    have hlast : ps.getLast? = g.path.getLast? := by
      have := getLast_of_cloned h.holds.first h' hcloned.root
        (by rw [g.path_first]; exact g.path_ne_nil) (by rw [hwith]; exact hps)
      rwa [hwith, g.path_first] at this
    have hfirst := Fork.first_withLeft hroot hlen hlast r
    have hpath : (g.withLeft ps).path = ps := by
      rw [← (g.withLeft ps).path_first r, hfirst, hwith]
    let s' : Slot K Value 1 := .leaf p s.bindings
    have hplug : (g.withLeft ps).plug s' r = ((g.first r).withPath ps).plug s' := by
      rw [← Fork.plug_first, hfirst]
    have hfirst' : Shaped layout t others ((g.first r).plug s) := by
      rw [g.plug_first]
      exact h
    refine ⟨t', g.withLeft ps, s', ?_, g.path'_withLeft ps, ?_, ?_, ?_, ?_, ?_, ?_, hkeeps⟩
    · rw [hpath]
      exact hrun
    · rw [hplug]
      exact hfirst'.of_same (Ctx.same_withPath _ ps) rfl h'
    · have hlen' : s'.entries.length = s.entries.length := rfl
      exact ((g.same_withLeft ps).canMerge hlen' rfl).mpr hmerge
    · rw [hplug, ← g.plug_first, flatRoot_plug, flatRoot_plug, Ctx.before_withPath,
        Ctx.after_withPath]
      rfl
    · exact fun r₀ ho => ho.withLeft p ps
    · rw [hpath]
      exact howned
    · rw [g.path'_withLeft, ← g.path_second s]
      exact hcloned.owned h.holds.second (by rw [g.path_second]; exact hr)
        (h.holds.beside_second hroot)

end Merge

omit [LinearOrder K] [Inhabited K] in
theorem SameBodies.setBody (h : SameBodies t t') (p : Nat) (b : Body K) :
    SameBodies (t.setBody p b) (t'.setBody p b) := by
  refine ⟨?_, h.next, h.root, h.snapshotId⟩
  intro q
  rw [bodyAt_setBody, bodyAt_setBody, h.body]

omit [LinearOrder K] [Inhabited K] in
/-- A reference to a block is given up. -/
theorem Holds.drop {tree : Root K Value} {b : Nat} (h : Holds t (plus others (.block b)) tree)
    (hsame : SameBodies t t')
    (hrefs : ∀ x, t'.refsOf x = t.refsOf x - if x = .block b then 1 else 0) :
    Holds t' others tree := by
  refine ⟨?_, h.nodup, hsame.root.trans h.root, ?_, ?_⟩
  · exact Rep.congr h.rep fun p _ => hsame.body p
  · intro x
    have hbal := h.balanced x
    rw [hrefs, hsame.slots, hsame.root]
    unfold withRoot plus at *
    split_ifs at hbal ⊢ <;> omega
  · rw [hrefs, hsame.root, if_neg nofun, h.owned]
    rfl

structure Stripped (t t' : PersistentTree K B) (c c' : Ctx K Value 0) (p : Nat)
    (old es : List (K × Value)) : Prop where
  sub : es.Sublist old
  keysUp : c' = c.fixKeys (.leaf p es) ∨ c' = c ∧ lastKey es = lastKey old
  writes : WritesTo (p :: c.path) t t'
  refs : ∀ q, t'.refsOf (.node q) = t.refsOf (.node q)

section Strip

variable {c c' : Ctx K Value 0} {s₀ : Slot K Value 1} {p : Nat} {es : List (K × Value)}

omit [LinearOrder K] in
/-- The entry is gone from its leaf, and the keys above are those of the nodes again unless the leaf
is empty. -/
theorem strip_spec {s : Slot K Value 1} {left right : List (K × Value)} {old : Value}
    (h : Shaped layout t others (c.plug s)) (hbindings : s.bindings = left ++ (key, old) :: right) :
    ∃ t₁ t₂ c', t.unrefBlock old.blockPtr = some t₁ ∧
      (t₁.setBody s.addr (.leaf (left ++ right))).updateKeysUp (s.addr :: c.path) left.length
        = some t₂ ∧
      Shaped layout (t₂.addSize (-1)) others (c'.plug (.leaf s.addr (left ++ right))) ∧
      Stripped t (t₂.addSize (-1)) c c' s.addr s.bindings (left ++ right) := by
  have hbody : t.bodyAt s.addr = some (.leaf s.bindings) := h.holds.bodyAt_node
  have hpos : 0 < t.refsOf (.block old.blockPtr) := by
    refine h.holds.balanced.refs_pos hbody ?_
    rw [hbindings]
    simp [ptrs]
  have hsub : (left ++ right).Sublist s.bindings := by
    rw [hbindings]
    exact (List.sublist_cons_self _ _).append_left left
  obtain ⟨t₁, hrun₁, hsame₁, hrefs₁⟩ := unrefBlock_spec (ne_of_gt hpos)
  have hset : Shaped layout (t.setBody s.addr (.leaf (left ++ right)))
      (plus others (.block old.blockPtr)) (c.plug (.leaf s.addr (left ++ right))) := by
    refine h.setLeaf (fun x => ?_) ?_
    · rw [hbindings, ptrs_insert]
      unfold plus
      omega
    · exact le_trans hsub.length_le (sized_plug.mp h.sized).1.1
  have h₁ : Holds (t₁.setBody s.addr (.leaf (left ++ right))) others
      (c.plug (.leaf s.addr (left ++ right))) := by
    refine hset.holds.drop (hsame₁.setBody _ _) fun x => ?_
    rw [refsOf_setBody, refsOf_setBody, hrefs₁]
  obtain ⟨t₂, hrun₂, h₂, hwrites₂, hrefs₂, -, -, -⟩ := updateKeysUp_spec h₁ left.length
  have hsame := sameBodies_addSize t₂ (-1)
  have hwrites : WritesTo (s.addr :: c.path) t (t₂.addSize (-1)) := by
    have hset := writesTo_setBody t₁ (List.mem_cons_self (a := s.addr) (l := c.path))
      (.leaf (left ++ right))
    refine (hsame₁.writesTo _).trans (hset.trans ?_)
    refine (hwrites₂.mono fun p hp => List.mem_cons_of_mem _ hp).trans (hsame.writesTo _)
  have hrefs : ∀ q, (t₂.addSize (-1)).refsOf (.node q) = t.refsOf (.node q) := by
    intro q
    have hne : Ptr.node q ≠ .block old.blockPtr := fun heq => by cases heq
    rw [refsOf_addSize, hrefs₂, refsOf_setBody, hrefs₁, if_neg hne]
    omega
  have h₃ := h₂.sameBodies hsame (refsOf_addSize t₂ (-1))
  split at h₃
  · exact ⟨t₁, t₂, _, hrun₁, hrun₂, hset.of_same (Ctx.same_fixKeys c _) rfl h₃, hsub, Or.inl rfl,
      hwrites, hrefs⟩
  · rename_i hsize
    refine ⟨t₁, t₂, c, hrun₁, hrun₂, hset.of_same (.refl c) rfl h₃, hsub, Or.inr ⟨rfl, ?_⟩, hwrites,
      hrefs⟩
    have hright : right ≠ [] := by
      rintro rfl
      refine hsize ?_
      change (left ++ []).length ≤ _
      simp
    rw [hbindings, lastKey_append_cons, lastKey_append_of_ne_nil _ hright, lastKey_cons]
    simp [hright]

omit [LinearOrder K] in
theorem Stripped.same {old : List (K × Value)} (h : Stripped t t' c c' p old es) :
    Ctx.Same c c' := by
  rcases h.keysUp with rfl | ⟨rfl, -⟩
  · exact Ctx.same_fixKeys c _
  · exact .refl c'

omit [LinearOrder K] in
theorem Stripped.path {old : List (K × Value)} (h : Stripped t t' c c' p old es) :
    c'.path = c.path := by
  rcases h.keysUp with rfl | ⟨rfl, -⟩
  · exact Ctx.path_fixKeys c _
  · rfl

omit [LinearOrder K] in
theorem Stripped.flat {old : List (K × Value)} (h : Stripped t t' c c' p old es) :
    flatRoot (c'.plug (.leaf p es)) = c.before ++ es ++ c.after := by
  rw [flatRoot_plug, flatOf_leaf, Slot.bindings_leaf]
  rcases h.keysUp with rfl | ⟨rfl, -⟩
  · rw [Ctx.before_fixKeys, Ctx.after_fixKeys]
  · rfl

/-- The keys above the leaf are right again. -/
theorem Stripped.keysAt (h : Stripped t t' c c' p s₀.bindings es)
    (hkeys : c.KeysAt (lastKey s₀.bindings)) : c'.KeysAt (lastKey es) := by
  rcases h.keysUp with rfl | ⟨rfl, hlast⟩
  · exact Ctx.keysAt_fixKeys hkeys.loose _
  · rwa [hlast]

omit [LinearOrder K] in
theorem Stripped.xplug (h : Stripped t t' c c' p s₀.bindings es) (s : Slot K Value 1) :
    c'.xplug s = c.xplug s := by
  rcases h.keysUp with rfl | ⟨rfl, -⟩
  · exact Ctx.xplug_fixKeys c _ _
  · rfl

/-- Without a merge: the leaf has entries left, or it is the root. -/
theorem Stripped.valid (h : Stripped t t' c c' p s₀.bindings es) (hold : Valid (c.plug s₀))
    (hne : c.path ≠ [] → es ≠ []) : Valid (c'.plug (.leaf p es)) := by
  obtain ⟨hx, hkeys⟩ := (valid_plug_iff c s₀).mp hold
  obtain ⟨hlo, hsorted⟩ := chain_leaf_iff.mp hx.chain_at.1
  refine (valid_plug_iff _ _).mpr ⟨?_, h.keysAt hkeys⟩
  rw [h.xplug]
  refine hx.replace ?_ ?_ ?_
  · rintro (hpath | hl)
    · exact hne hpath
    · exact absurd rfl hl
  · exact chain_leaf_iff.mpr
      ⟨fun b hb => hlo b (h.sub.subset hb), List.Pairwise.sublist h.sub hsorted⟩
  · intro htrail
    by_cases hempty : es = []
    · have hpath : c.path = [] := by
        by_contra hpath
        exact hne hpath hempty
      rw [Ctx.eq_top_of_path hpath] at htrail
      cases htrail
    · obtain ⟨bs, b, rfl⟩ := (List.eq_nil_or_concat' es).resolve_left hempty
      have hlast : lastKey (Slot.leaf p (bs ++ [b])).entries = b.1 := lastKey_concat bs b
      rw [hlast]
      exact hx.chain_at.1.le_lastKey_of_mem (h.sub.subset (by simp))

/-- The bindings of two neighbouring leaves, one after the other. -/
theorem Fork.ValidAt.bindings {g : Fork K Value 0} {s r : Slot K Value 1} (h : g.ValidAt s r) :
    (∀ b ∈ s.bindings ++ r.bindings, g.loOf < b.1) ∧ Sorted (s.bindings ++ r.bindings) := by
  obtain ⟨⟨hs, hchain⟩, -, hchain'⟩ := h.chains
  obtain ⟨hlo, hsorted⟩ := chain_leaf_iff.mp hchain
  obtain ⟨hlo', hsorted'⟩ := chain_leaf_iff.mp hchain'
  have hlast : g.loOf < lastKey s.entries := hchain.lt_lastKey hs
  refine ⟨?_, sorted_append.mpr ⟨hsorted, hsorted', ?_⟩⟩
  · intro b hb
    rcases List.mem_append.mp hb with hb | hb
    · exact hlo b hb
    · exact lt_trans hlast (hlo' b hb)
  · intro a ha b hb
    have hle : a.1 ≤ lastKey s.entries := hchain.le_lastKey_of_mem ha
    exact lt_of_le_of_lt hle (WithBot.coe_lt_coe.mp (hlo' b hb))

/-- The leaf and the next one. -/
theorem Stripped.orderedNext (h : Stripped t t' c c' p s₀.bindings es) (hold : Valid (c.plug s₀))
    {g : Fork K Value 0} {r : Slot K Value 1} (hg : g.first r = c') :
    Ordered g (.leaf p es) r s₀ r := by
  obtain ⟨hx, hkeys⟩ := (valid_plug_iff c s₀).mp hold
  have hvalid : g.ValidAt s₀ r := by
    refine Fork.validAt_of_first ?_
    rw [hg, h.xplug]
    exact hx
  obtain ⟨hlo, hsorted⟩ := Fork.ValidAt.bindings hvalid
  have hr : r.bindings ≠ [] := hvalid.chains.2.1
  have hsub : (es ++ r.bindings).Sublist (s₀.bindings ++ r.bindings) := h.sub.append_right _
  refine ⟨?_, hvalid, List.append_ne_nil_of_right_ne_nil _ hr, ?_, ?_⟩
  · refine Fork.loose_of_first (r := r) ?_
    rw [hg]
    exact (h.keysAt hkeys).loose
  · exact chain_leaf_iff.mpr
      ⟨fun b hb => hlo b (hsub.subset hb), List.Pairwise.sublist hsub hsorted⟩
  · intro _
    exact le_of_eq (lastKey_append_of_ne_nil es hr)

/-- The previous leaf and the leaf, which is the last one. -/
theorem Stripped.orderedPrev (h : Stripped t t' c c' p s₀.bindings es) (hold : Valid (c.plug s₀))
    {g : Fork K Value 0} {s : Slot K Value 1} (hg : g.second s = c') (htrail : c'.trailOf = true) :
    Ordered g s (.leaf p es) s s₀ := by
  obtain ⟨hx, hkeys⟩ := (valid_plug_iff c s₀).mp hold
  have hvalid : g.ValidAt s s₀ := by
    refine Fork.validAt_of_second ?_
    rw [hg, h.xplug]
    exact hx
  obtain ⟨hlo, hsorted⟩ := Fork.ValidAt.bindings hvalid
  have hs : s.bindings ≠ [] := hvalid.chains.1.1
  have hsub : (s.bindings ++ es).Sublist (s.bindings ++ s₀.bindings) := h.sub.append_left _
  refine ⟨?_, hvalid, List.append_ne_nil_of_left_ne_nil hs _, ?_, ?_⟩
  · refine Fork.loose_of_second (s := s) ?_
    rw [hg]
    exact (h.keysAt hkeys).loose
  · exact chain_leaf_iff.mpr
      ⟨fun b hb => hlo b (hsub.subset hb), List.Pairwise.sublist hsub hsorted⟩
  · intro hfalse
    rw [← hg, g.trailOf_second, hfalse] at htrail
    cases htrail

end Strip

section After

variable {c c' : Ctx K Value 0} {s₀ : Slot K Value 1} {p : Nat} {es : List (K × Value)}

structure MergeFits (layout : NodeLayout) (t : PersistentTree K B) (c : Ctx K Value 0)
    (s : Slot K Value 1) : Prop where
  next : s.bindings.length ≤ layout.nodeSize / 2 →
    ∀ (g : Fork K Value 0) (r : Slot K Value 1), g.first r = c → g.CanMerge layout.nodeSize s r →
    g.AtRoot ∨ ∀ q ∈ (r.addr :: g.path').dropLast, t.refsOf (.node q) ≤ 1
  prev : s.bindings.length ≤ layout.nodeSize / 2 → c.trailOf = true →
    ∀ (g : Fork K Value 0) (r : Slot K Value 1), g.second r = c → g.CanMerge layout.nodeSize r s →
    g.AtRoot ∨ ∀ q ∈ (r.addr :: g.path).dropLast, t.refsOf (.node q) ≤ 1

structure EmptyFits (layout : NodeLayout) (c : Ctx K Value 0) (s : Slot K Value 1) : Prop where
  next : s.bindings = [] → ∀ (g : Fork K Value 0) (r : Slot K Value 1), g.first r = c →
    g.CanMerge layout.nodeSize s r
  prev : s.bindings = [] → c.path ≠ [] → c.trailOf = true → ¬ c.LeftEdge ∧
    ∀ (g : Fork K Value 0) (r : Slot K Value 1), g.second r = c → g.CanMerge layout.nodeSize r s

/-- The merge that follows a removal keeps the entries, and makes up for a leaf without any. -/
theorem mergeAfterRemove_spec (h : Shaped layout t' others (c'.plug (.leaf p es)))
    (hstrip : Stripped t t' c c' p s₀.bindings es) (howned : Owned t' (p :: c'.path))
    (hfits : MergeFits layout t' c' (.leaf p es)) :
    ∃ t'' tree, t'.mergeAfterRemove layout (p :: c'.path) = some t'' ∧
      Shaped layout t'' others tree ∧ flatRoot tree = c.before ++ es ++ c.after ∧
      Keeps others t' t'' ∧
      (Valid (c.plug s₀) → EmptyFits layout c' (.leaf p es) → Valid tree) := by
  have hentries : t'.leafEntries p = some es := leafEntries_of_bodyAt h.holds.bodyAt_node
  have hfilled := (filled_plug.mp h.filled).2
  have hstay : (EmptyFits layout c' (.leaf p es) → c.path ≠ [] → es ≠ []) →
      t'.mergeAfterRemove layout (p :: c'.path) = some t' →
      ∃ t'' tree, t'.mergeAfterRemove layout (p :: c'.path) = some t'' ∧
        Shaped layout t'' others tree ∧ flatRoot tree = c.before ++ es ++ c.after ∧
        Keeps others t' t'' ∧
        (Valid (c.plug s₀) → EmptyFits layout c' (.leaf p es) → Valid tree) := fun hne hrun =>
    ⟨t', _, hrun, h, hstrip.flat, .refl others t', fun hvalid hempty =>
      hstrip.valid hvalid (hne hempty)⟩
  by_cases hsmall : es.length ≤ layout.nodeSize / 2
  case neg =>
    refine hstay ?_ ?_
    · rintro - - rfl
      exact hsmall (Nat.zero_le _)
    · simp only [mergeAfterRemove, List.head?_cons, hentries, Option.bind_eq_bind,
        Option.bind_some, hsmall, if_false]
  rcases exists_fork_behind hfilled with htrail | ⟨g, r, hg, -⟩
  · have hnext := getNextNode_none h.holds htrail
    rw [Slot.addr_leaf] at hnext
    rcases exists_fork_before hfilled with hedge | ⟨g, r, hg, -⟩
    · refine hstay ?_ ?_
      · intro hempty hpath hes
        exact (hempty.prev hes (hstrip.path ▸ hpath) htrail).1 hedge
      · have hprev := getPrevNode_none h.holds hedge
        rw [Slot.addr_leaf] at hprev
        simp only [mergeAfterRemove, List.head?_cons, hentries, Option.bind_eq_bind,
          Option.bind_some, hsmall, if_true, hnext, hprev]
    · have hplug : c'.plug (.leaf p es) = g.plug r (.leaf p es) := by rw [← g.plug_second, hg]
      rw [hplug] at h
      have hprev := getPrevNode_fork h.holds
      have hpath' : g.path' = c'.path := by rw [← hg, g.path_second]
      obtain ⟨b, hcan, hb⟩ := canMergePaths_spec h.holds
      rw [hpath', Slot.addr_leaf] at hprev hcan
      cases b with
      | false =>
          refine hstay ?_ ?_
          · intro hempty hpath hes
            have hmerge := (hempty.prev hes (hstrip.path ▸ hpath) htrail).2 g r hg
            exact absurd (hb.mpr hmerge) nofun
          · simp only [mergeAfterRemove, List.head?_cons, hentries, Option.bind_eq_bind,
              Option.bind_some, hsmall, if_true, hnext, hprev, hcan]
            rfl
      | true =>
          have hmerge := hb.mp rfl
          obtain ⟨t₁, g₁, r₁, hrun₁, hpath₁, h₁, hmerge₁, hflat₁, hordered₁, hr₁, hs₁, hkeeps₁⟩ :=
            h.updateLeft hmerge (by rw [hpath']; exact howned)
              (hfits.prev hsmall htrail g r hg hmerge)
          obtain ⟨t₂, path, hrun₂, h₂, hkeeps₂⟩ := h₁.mergePaths hmerge₁ hr₁ hs₁
          refine ⟨t₂, _, ?_, h₂, ?_, hkeeps₁.trans hkeeps₂, ?_⟩
          · rw [hpath₁, hpath', Slot.addr_leaf] at hrun₂
            simp only [mergeAfterRemove, List.head?_cons, hentries, Option.bind_eq_bind,
              Option.bind_some, hsmall, if_true, hnext, hprev, hcan, hrun₁, hrun₂]
          · rw [Fork.flatRoot_merge, hflat₁, ← hplug, hstrip.flat]
          · intro hvalid _
            exact (hordered₁ s₀ (hstrip.orderedPrev hvalid hg htrail)).valid_merge
  · have hplug : c'.plug (.leaf p es) = g.plug (.leaf p es) r := by rw [← g.plug_first, hg]
    rw [hplug] at h
    have hnext := getNextNode_fork h.holds
    have hpath : g.path = c'.path := by rw [← hg, g.path_first]
    obtain ⟨b, hcan, hb⟩ := canMergePaths_spec h.holds
    rw [hpath, Slot.addr_leaf] at hnext hcan
    cases b with
    | false =>
        refine hstay ?_ ?_
        · intro hempty _ hes
          exact absurd (hb.mpr (hempty.next hes g r hg)) nofun
        · simp only [mergeAfterRemove, List.head?_cons, hentries, Option.bind_eq_bind,
            Option.bind_some, hsmall, if_true, hnext, hcan]
          rfl
    | true =>
        have hmerge := hb.mp rfl
        obtain ⟨t₁, g₁, r₁, hrun₁, hpath₁, h₁, hmerge₁, hflat₁, hordered₁, hs₁, hr₁, hkeeps₁⟩ :=
          h.updateRight hmerge (by rw [hpath]; exact howned) (hfits.next hsmall g r hg hmerge)
        obtain ⟨t₂, path, hrun₂, h₂, hkeeps₂⟩ := h₁.mergePaths hmerge₁ hs₁ hr₁
        refine ⟨t₂, _, ?_, h₂, ?_, hkeeps₁.trans hkeeps₂, ?_⟩
        · rw [hpath₁, hpath, Slot.addr_leaf] at hrun₂
          simp only [mergeAfterRemove, List.head?_cons, hentries, Option.bind_eq_bind,
            Option.bind_some, hsmall, if_true, hnext, hcan, hrun₁, hrun₂]
        · rw [Fork.flatRoot_merge, hflat₁, ← hplug, hstrip.flat]
        · intro hvalid _
          exact (hordered₁ s₀ (hstrip.orderedNext hvalid hg)).valid_merge

end After

def canMergeLess (layout : NodeLayout) (t : PersistentTree K B) :
    List Nat → List Nat → Option Bool
  | node :: parent :: rest, right :: nextParent :: nextRest => do
      let size ← t.size node
      let nextSize ← t.size right
      if size + nextSize ≤ layout.nodeSize + 1 then
        if parent = nextParent then some true
        else t.canMergePaths layout (parent :: rest) (nextParent :: nextRest)
      else
        some false
  | _, _ => none

def mergePair (t : PersistentTree K B) (path : List Nat) : Option (List Nat × List Nat) :=
  match t.getNextNode path with
  | some (some next) => some (path, next)
  | some none => (t.getPrevNode path).join.map fun prev => (prev, path)
  | none => none

/-- The paths have no node in common below the root, or nobody else has nodes of them. -/
def Apart (t : PersistentTree K B) (path path' : List Nat) : Prop :=
  (∀ p ∈ path'.dropLast, p ∉ path.dropLast) ∨
    ∀ p ∈ path.dropLast ++ path'.dropLast, t.refsOf (.node p) ≤ 1

instance (t : PersistentTree K B) (path path' : List Nat) : Decidable (Apart t path path') :=
  inferInstanceAs (Decidable (_ ∨ _))

/-- If the removal of the entry at `iter` is followed by a merge, cloning the one path leaves the
other one as it is. -/
def MergesApart (layout : NodeLayout) (t : PersistentTree K B) (iter : Iter) : Prop :=
  ∀ entries ∈ iter.path.head?.bind t.leafEntries, iter.idx < entries.length →
    entries.length ≤ layout.nodeSize / 2 + 1 → ∀ pair ∈ t.mergePair iter.path,
      t.canMergeLess layout pair.1 pair.2 = some true → Apart t pair.1 pair.2

/-- If `iter` stands at the only entry of its leaf, the leaf is the root or it is merged. -/
def EmptiedMerged (layout : NodeLayout) (t : PersistentTree K B) (iter : Iter) : Prop :=
  ∀ entries ∈ iter.path.head?.bind t.leafEntries, iter.idx < entries.length →
    entries.length = 1 → iter.path.length = 1 ∨
      ∃ pair ∈ t.mergePair iter.path, t.canMergeLess layout pair.1 pair.2 = some true

instance (layout : NodeLayout) (t : PersistentTree K B) (iter : Iter) :
    Decidable (MergesApart layout t iter) :=
  inferInstanceAs (Decidable (∀ entries ∈ iter.path.head?.bind t.leafEntries, _))

instance (layout : NodeLayout) (t : PersistentTree K B) (iter : Iter) :
    Decidable (EmptiedMerged layout t iter) :=
  inferInstanceAs (Decidable (∀ entries ∈ iter.path.head?.bind t.leafEntries, _))

/-- The removal of the entry at `iter` keeps the tree a search tree that nobody else writes to. -/
def RemoveOk (layout : NodeLayout) (t : PersistentTree K B) (iter : Iter) : Prop :=
  MergesApart layout t iter ∧ EmptiedMerged layout t iter

instance (layout : NodeLayout) (t : PersistentTree K B) (iter : Iter) :
    Decidable (RemoveOk layout t iter) := inferInstanceAs (Decidable (_ ∧ _))

omit [LinearOrder K] [Inhabited K] in
theorem canMergeLess_spec {g : Fork K Value 0} {s s' r r' : Slot K Value 1}
    (h : Holds t others (g.plug s r))
    (hlen : s'.entries.length + r'.entries.length + 1 = s.entries.length + r.entries.length) :
    ∃ b, t.canMergeLess layout (s.addr :: g.path) (r.addr :: g.path') = some b ∧
      (b = true ↔ g.CanMerge layout.nodeSize s' r') := by
  have hs : t.size s.addr = some s.entries.length := size_of_bodyAt h.first.bodyAt_node
  have hr : t.size r.addr = some r.entries.length := size_of_bodyAt h.second.bodyAt_node
  cases g with
  | joint w =>
      simp only [canMergeLess, Fork.path, Fork.path', Fork.CanMerge, hs, hr, Option.bind_eq_bind,
        Option.bind_some, if_true]
      split
      · exact ⟨true, rfl, by simp; omega⟩
      · exact ⟨false, rfl, by simp; omega⟩
  | apart q left key q' key' right g =>
      have hne : q ≠ q' := Holds.addr_ne (g := g) h
      have hupper : Holds t others
          (g.plug (.node q (left ++ [(key, s)])) (.node q' ((key', r) :: right))) := h
      obtain ⟨b, hrun, hb⟩ := (@canMergePaths_spec _ _ layout) hupper
      simp only [canMergeLess, Fork.path, Fork.path', Fork.CanMerge, hs, hr, Option.bind_eq_bind,
        Option.bind_some, hne, if_false]
      split
      · refine ⟨b, hrun, hb.trans ?_⟩
        rw [and_iff_right (by omega)]
        exact (Fork.Same.refl g).canMerge (by simp [Slot.entries_node]) (by simp [Slot.entries_node])
      · exact ⟨false, rfl, by simp; omega⟩

omit [LinearOrder K] [Inhabited K] in
theorem mergePair_next {g : Fork K Value 0} {s r : Slot K Value 1}
    (h : Holds t others (g.plug s r)) :
    t.mergePair (s.addr :: g.path) = some (s.addr :: g.path, r.addr :: g.path') := by
  rw [mergePair, getNextNode_fork h]

omit [LinearOrder K] [Inhabited K] in
theorem mergePair_prev {g : Fork K Value 0} {s r : Slot K Value 1}
    (h : Holds t others (g.plug s r)) (htrail : (g.second s).trailOf = true) :
    t.mergePair (r.addr :: g.path') = some (s.addr :: g.path, r.addr :: g.path') := by
  have hnext := getNextNode_none (t := t) h.second htrail
  rw [g.path_second] at hnext
  rw [mergePair, hnext, getPrevNode_fork h]
  rfl

section Before

variable {c c' : Ctx K Value 0} {s : Slot K Value 1} {p p' : Nat} {ps : List Nat}
  {es : List (K × Value)} {i : Nat}

omit [LinearOrder K] [Inhabited K] in
/-- The condition carries over from the leaf to what the removal makes of it. -/
theorem MergesApart.fits (hok : MergesApart layout t ⟨s.addr :: c.path, i⟩)
    (h : Holds t others (c.plug s)) (hi : i < s.bindings.length)
    (hstep : PathStep t t₁ others (s.addr :: c.path) (p' :: ps)) (hsame : Ctx.Same c c')
    (hpath : c'.path = ps) (hrefs : ∀ q, t'.refsOf (.node q) = t₁.refsOf (.node q))
    (hlen : es.length + 1 = s.bindings.length) : MergeFits layout t' c' (.leaf p es) := by
  have hentries : s.bindings ∈ (s.addr :: c.path).head?.bind t.leafEntries :=
    leafEntries_of_bodyAt h.bodyAt_node
  -- nothing is cloned if none of the nodes is shared
  have howned : ∀ {path : List Nat}, (∀ q ∈ path, t.refsOf (.node q) ≤ 1) →
      (∀ q ∈ (s.addr :: c.path).dropLast, q ∈ path) →
      c'.path = c.path ∧ ∀ q ∈ path, t'.refsOf (.node q) ≤ 1 := by
    intro path hle hsub
    rcases hstep.cases with ⟨rfl, heq⟩ | ⟨⟨q, hq, hshared⟩, -⟩
    · refine ⟨hpath.trans (List.cons.inj heq).2, fun q hq => ?_⟩
      rw [hrefs]
      exact hle q hq
    · have := hle q (hsub q hq)
      omega
  have hless : ∀ r : Slot K Value 1, (Slot.leaf p es : Slot K Value 1).entries.length
      + r.entries.length + 1 = s.entries.length + r.entries.length := by
    intro r
    change es.length + _ + 1 = s.bindings.length + _
    omega
  refine ⟨?_, ?_⟩
  · rintro hsmall g' r rfl hmerge
    change es.length ≤ _ at hsmall
    obtain ⟨g, rfl, hfork, hpaths⟩ := hsame.symm.first
    rw [g.plug_first] at h
    rw [g.path_first] at hok hentries howned
    rw [g'.path_first] at howned
    obtain ⟨b, hcan, hb⟩ := (@canMergeLess_spec _ _ layout) h (hless r)
    rw [hb.mpr ((hfork.canMerge rfl rfl).mpr hmerge)] at hcan
    obtain hdisjoint | hle := hok _ hentries hi (by omega) _ (mergePair_next h) hcan
    · exact Or.inl (hfork.atRoot.mp (Fork.atRoot_of_disjoint hdisjoint))
    · obtain ⟨heq, hle'⟩ := howned hle fun q hq => List.mem_append_left _ hq
      rw [hpaths heq.symm] at hle'
      exact Or.inr fun q hq => hle' q (List.mem_append_right _ hq)
  · rintro hsmall htrail g' r rfl hmerge
    change es.length ≤ _ at hsmall
    have htrail' := hsame.trailOf.symm.trans htrail
    obtain ⟨g, rfl, hfork, hpaths⟩ := hsame.symm.second
    rw [g.plug_second] at h
    rw [g.path_second] at hok hentries howned
    rw [g'.path_second] at howned
    obtain ⟨b, hcan, hb⟩ := (@canMergeLess_spec _ _ layout) h
      (show r.entries.length + (Slot.leaf p es : Slot K Value 1).entries.length + 1 = _ by
        have := hless r
        omega)
    rw [hb.mpr ((hfork.canMerge rfl rfl).mpr hmerge)] at hcan
    obtain hdisjoint | hle := hok _ hentries hi (by omega) _ (mergePair_prev h htrail') hcan
    · exact Or.inl (hfork.atRoot.mp (Fork.atRoot_of_disjoint hdisjoint))
    · obtain ⟨heq, hle'⟩ := howned hle fun q hq => List.mem_append_right _ hq
      rw [hpaths heq.symm] at hle'
      exact Or.inr fun q hq => hle' q (List.mem_append_left _ hq)

omit [LinearOrder K] [Inhabited K] in
theorem EmptiedMerged.fits (hok : EmptiedMerged layout t ⟨s.addr :: c.path, i⟩)
    (h : Holds t others (c.plug s)) (hi : i < s.bindings.length) (hsame : Ctx.Same c c')
    (hlen : es.length + 1 = s.bindings.length) :
    EmptyFits layout c' (.leaf p es) := by
  have hentries : s.bindings ∈ (s.addr :: c.path).head?.bind t.leafEntries :=
    leafEntries_of_bodyAt h.bodyAt_node
  have hless : ∀ r : Slot K Value 1, (Slot.leaf p es : Slot K Value 1).entries.length
      + r.entries.length + 1 = s.entries.length + r.entries.length := by
    intro r
    change es.length + _ + 1 = s.bindings.length + _
    omega
  have hroot : (s.addr :: c.path).length = 1 → c.path = [] := by
    intro hone
    rw [List.length_cons] at hone
    exact List.length_eq_zero_iff.mp (by omega)
  refine ⟨?_, ?_⟩
  · rintro hes g' r rfl
    change es = [] at hes
    obtain ⟨g, rfl, hfork, -⟩ := hsame.symm.first
    rw [g.plug_first] at h
    obtain ⟨b, hcan, hb⟩ := (@canMergeLess_spec _ _ layout) h (hless r)
    rcases hok _ hentries hi (by rw [← hlen, hes]; rfl) with hone | ⟨pair, hpair, hmerge⟩
    · have hnil := hroot hone
      rw [g.path_first] at hnil
      exact absurd hnil g.path_ne_nil
    · have heq := mergePair_next h
      rw [← g.path_first r] at heq
      obtain rfl := Option.some.inj (heq.symm.trans hpair)
      rw [g.path_first, hcan] at hmerge
      exact (hfork.canMerge rfl rfl).mp (hb.mp (Option.some.inj hmerge))
  · rintro hes hpath htrail
    change es = [] at hes
    have htrail' := hsame.trailOf.symm.trans htrail
    have hne : (s.addr :: c.path).length ≠ 1 := by
      intro hone
      refine hpath (List.length_eq_zero_iff.mp ?_)
      rw [hsame.length_path, hroot hone]
      rfl
    obtain ⟨pair, hpair, hmerge⟩ :=
      (hok _ hentries hi (by rw [← hlen, hes]; rfl)).resolve_left hne
    refine ⟨?_, ?_⟩
    · intro hedge
      have hnext := getNextNode_none h htrail'
      have hprev := getPrevNode_none h (hsame.leftEdge.mp hedge)
      rw [mergePair, hnext, hprev] at hpair
      cases hpair
    · rintro g' r rfl
      obtain ⟨g, rfl, hfork, -⟩ := hsame.symm.second
      rw [g.plug_second] at h
      obtain ⟨b, hcan, hb⟩ := (@canMergeLess_spec _ _ layout) h
        (show r.entries.length + (Slot.leaf p es : Slot K Value 1).entries.length + 1 = _ by
          have := hless r
          omega)
      have heq := mergePair_prev h htrail'
      rw [← g.path_second r] at heq
      obtain rfl := Option.some.inj (heq.symm.trans hpair)
      rw [g.path_second, hcan] at hmerge
      exact (hfork.canMerge rfl rfl).mp (hb.mp (Option.some.inj hmerge))

end Before

/-- `remove_from` keeps all of a tree but its order, which it keeps too unless it leaves a leaf
without entries. -/
theorem removeFrom_spec {c : Ctx K Value 0} {s : Slot K Value 1} {left right : List (K × Value)}
    {old : Value} (h : Shaped layout t others (c.plug s))
    (hbindings : s.bindings = left ++ (key, old) :: right)
    (hok : MergesApart layout t ⟨s.addr :: c.path, left.length⟩) :
    ∃ t' tree, t.removeFrom layout ⟨s.addr :: c.path, left.length⟩ = some t' ∧
      Shaped layout t' others tree ∧ flatRoot tree = c.before ++ (left ++ right) ++ c.after ∧
      Keeps others t t' ∧ (Valid (c.plug s) →
        EmptiedMerged layout t ⟨s.addr :: c.path, left.length⟩ → Valid tree) := by
  obtain ⟨t₁, p, ps, hrun₁, hpath, h₁, hstep₁⟩ := h.updatePath
  have hbindings₁ : (Slot.leaf p s.bindings : Slot K Value 1).bindings = left ++ (key, old) :: right :=
    hbindings
  obtain ⟨t₂, t₃, c', hunref, hkeys, h₃, hstrip⟩ := strip_spec h₁ hbindings₁
  rw [hpath, Slot.addr_leaf] at hkeys
  have hpath' : c'.path = ps := hstrip.path.trans hpath
  have hleaf : t₁.leafEntries p = some s.bindings := leafEntries_of_bodyAt h₁.holds.bodyAt_node
  have hi : left.length < s.bindings.length := by simp [hbindings]
  have hlen : (left ++ right).length + 1 = s.bindings.length := by
    simp only [hbindings, List.length_append, List.length_cons]
    omega
  have hsame : Ctx.Same c c' := (Ctx.same_withPath c ps).trans hstrip.same
  have howned : Owned (t₃.addSize (-1)) (p :: c'.path) := by
    intro q hq
    rw [hstrip.refs]
    rw [hpath'] at hq
    exact hstep₁.owned q hq
  have howned₁ : Owned t₁ ((Slot.leaf p s.bindings : Slot K Value 1).addr :: (c.withPath ps).path) := by
    rw [hpath]
    exact hstep₁.owned
  obtain ⟨t', tree, hrun, h', hflat, hkeeps, hvalid⟩ :=
    mergeAfterRemove_spec h₃ hstrip howned
      (hok.fits h.holds hi hstep₁ hsame hpath' hstrip.refs hlen)
  refine ⟨t', tree, ?_, h', ?_, ?_, ?_⟩
  · have hget : (left ++ (key, old) :: right)[left.length]? = some (key, old) := by simp
    have herase : (left ++ (key, old) :: right).eraseIdx left.length = left ++ right := by
      rw [List.eraseIdx_append_of_length_le le_rfl, Nat.sub_self, List.eraseIdx_cons_zero]
    rw [hpath'] at hrun
    simp only [removeFrom, hrun₁, Option.bind_eq_bind, Option.bind_some, List.head?_cons, hleaf,
      hbindings, hget, hunref, herase, hkeys]
    exact hrun
  · rw [hflat, Ctx.before_withPath, Ctx.after_withPath]
  · have hwrite := h₁.holds.keeps howned₁ hstrip.writes.2 fun q _ _ _ => hstrip.refs q
    exact (hstep₁.keeps.trans hwrite).trans hkeeps
  · intro hold hempty
    exact hvalid (valid_withPath hold p ps)
      (hempty.fits h.holds hi hsame hlen)

end Memoria.PersistentTree

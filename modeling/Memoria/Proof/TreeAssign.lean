import Memoria.Lib.Run
import Memoria.Proof.TreeLeaf
import Memoria.Proof.TreeNext

/-!
# Assigning a value to a key

The new value replaces the old one, or is inserted into the leaf of its key, which is split first if
it is full.
-/

namespace Memoria.PersistentTree

open Lib

variable {K B : Type} [LinearOrder K] [Inhabited K] {layout : NodeLayout} {key : K} {value : Value}
  {t t' : PersistentTree K B} {others : Ptr → Nat}

structure Cut (key : K) (c : Ctx K Value 0) (s : Slot K Value 1) (left right : List (K × Value)) :
    Prop where
  bindings : s.bindings = left ++ right
  left_lt : ∀ b ∈ left, b.1 < key
  lt_right : ∀ b ∈ right, key < b.1
  lo : c.loOf < key
  hi : c.trailOf = false → key ≤ lastKey s.bindings

section Cut

variable {c : Ctx K Value 0} {s : Slot K Value 1} {left right : List (K × Value)}

omit [LinearOrder K] [Inhabited K] in
theorem ptrs_insert (left right : List (K × Value)) (key : K) (value : Value) (x : Ptr) :
    (ptrs (.leaf (left ++ (key, value) :: right) : Body K)).count x
      = (ptrs (.leaf (left ++ right) : Body K)).count x
        + if x = .block value.blockPtr then 1 else 0 := by
  simp only [ptrs, List.map_append, List.map_cons, List.count_append, List.count_cons, beq_iff_eq,
    eq_comm (b := x)]
  omega

theorem Cut.lastKey_eq (h : Cut key c s left right) (hright : right ≠ []) :
    lastKey (left ++ (key, value) :: right) = lastKey s.bindings := by
  rw [h.bindings, lastKey_append_cons, lastKey_append_of_ne_nil _ hright, lastKey_cons]
  simp [hright]

/-- The new key is the last one only on the right edge of the tree. -/
theorem Cut.trailOf (h : Cut key c s left right) (hvalid : Valid (c.xplug s)) (hright : right = []) :
    c.trailOf = true := by
  by_contra htrail
  have hfalse : c.trailOf = false := by simpa using htrail
  have hpath : c.path ≠ [] := by
    intro hpath
    rw [Ctx.eq_top_of_path hpath] at hfalse
    cases hfalse
  have hne : s.bindings ≠ [] := hvalid.entries_ne_nil (Or.inl hpath)
  have hbound := h.hi hfalse
  have hbindings := h.bindings
  rw [hright, List.append_nil] at hbindings
  rw [hbindings] at hne hbound
  obtain ⟨es, e, hes⟩ := (List.eq_nil_or_concat left).resolve_left hne
  rw [List.concat_eq_append] at hes
  rw [hes, lastKey_concat] at hbound
  exact absurd (h.left_lt e (by simp [hes])) (not_lt.mpr hbound)

theorem Cut.chain (h : Cut key c s left right) (hvalid : Valid (c.xplug s)) (p : Nat) :
    Chain (VSlot 0) c.trailOf c.loOf (Slot.leaf p (left ++ (key, value) :: right)).entries := by
  obtain ⟨hlo, hsorted⟩ := chain_leaf_iff.mp hvalid.chain_at.1
  rw [h.bindings] at hlo hsorted
  refine chain_leaf_iff.mpr ⟨?_, ?_⟩
  · intro b hb
    rw [Slot.bindings_leaf] at hb
    rcases List.mem_append.mp hb with hb | hb
    · exact hlo b (List.mem_append_left _ hb)
    · rcases List.mem_cons.mp hb with rfl | hb
      · exact h.lo
      · exact hlo b (List.mem_append_right _ hb)
  · exact sorted_insert hsorted h.left_lt (fun b hb => le_of_lt (h.lt_right b hb))
      fun b hb => ne_of_gt (h.lt_right b hb)

omit [LinearOrder K] [Inhabited K] in
theorem insertLeaf_eq (hbindings : s.bindings = left ++ right) (key : K) (value : Value)
    (h : Holds t others (c.plug s)) (hroom : s.bindings.length < layout.nodeSize) :
    t.insertLeaf layout s.addr left.length key value
      = some (t.setBody s.addr (.leaf (left ++ (key, value) :: right))) := by
  have hbody : t.bodyAt s.addr = some (.leaf s.bindings) := h.bodyAt_node
  simp only [insertLeaf, leafEntries_of_bodyAt hbody, Option.bind_eq_bind, Option.bind_some, guard,
    hroom, if_true, Option.pure_def]
  rw [hbindings, insertIdx_append_length]

variable (key) in
omit [LinearOrder K] [Inhabited K] in
/-- Insertion into a leaf with room, after which the keys above are left as they are. -/
theorem Shaped.insert (h : Shaped layout t (plus others (.block value.blockPtr)) (c.plug s))
    (hbindings : s.bindings = left ++ right) (hroom : s.bindings.length < layout.nodeSize) :
    Shaped layout (t.setBody s.addr (.leaf (left ++ (key, value) :: right))) others
      (c.plug (.leaf s.addr (left ++ (key, value) :: right))) := by
  refine h.setLeaf ?_ ?_
  · intro x
    rw [hbindings, ptrs_insert]
    unfold plus
    omega
  · rw [hbindings, List.length_append] at hroom
    rw [List.length_append, List.length_cons]
    omega

variable (value) in
theorem Cut.valid_insert (hcut : Cut key c s left right) (hvalid : Valid (c.plug s)) (p : Nat) :
    Valid (c.plug (.leaf p (left ++ (key, value) :: right))) := by
  obtain ⟨hx, -⟩ := (valid_plug_iff c s).mp hvalid
  refine valid_setLeaf hvalid (by simp) (hcut.chain hx p) ?_
  by_cases hright : right = []
  · exact Or.inr ⟨hcut.trailOf hx hright, fun hpath => hx.entries_ne_nil (Or.inl hpath)⟩
  · exact Or.inl (hcut.lastKey_eq hright)

variable (key) in
/-- Insertion into a leaf with room, after which the keys above are updated. -/
theorem Shaped.insertKeys
    (h : Shaped layout t (plus others (.block value.blockPtr)) (c.plug s))
    (hbindings : s.bindings = left ++ right) (hroom : s.bindings.length < layout.nodeSize) :
    ∃ t', ∃ c' : Ctx K Value 0, (t.setBody s.addr (.leaf (left ++ (key, value) :: right))).updateKeysUp
        (s.addr :: c.path) left.length = some t' ∧
      Shaped layout t' others (c'.plug (.leaf s.addr (left ++ (key, value) :: right))) ∧
      (Cut key c s left right → Valid (c.plug s) →
        Valid (c'.plug (.leaf s.addr (left ++ (key, value) :: right)))) ∧
      c'.before = c.before ∧ c'.after = c.after ∧ WritesTo (s.addr :: c.path) t t' ∧
      (∀ x, t'.refsOf x = t.refsOf x) ∧ t'.nodes.next = t.nodes.next := by
  have h₁ := h.insert key hbindings hroom
  obtain ⟨t', hrun, h', hwrites, hrefs, -, hnext, -⟩ := updateKeysUp_spec h₁.holds left.length
  obtain ⟨hs, hc⟩ := sized_plug.mp h₁.sized
  have hheight := h₁.height
  rw [fst_plug] at hheight
  have hwrites' : WritesTo (s.addr :: c.path) t t' :=
    (writesTo_setBody t List.mem_cons_self _).trans
      (hwrites.mono fun p hp => List.mem_cons_of_mem _ hp)
  have hrefs' : ∀ x, t'.refsOf x = t.refsOf x := by
    intro x
    rw [hrefs, refsOf_setBody]
  split at h'
  · refine ⟨t', _, hrun, ⟨h', ?_, ?_, ?_⟩, ?_, Ctx.before_fixKeys _ _, Ctx.after_fixKeys _ _,
      hwrites', hrefs', hnext⟩
    · exact sized_plug.mpr ⟨hs, Ctx.sized_fixKeys hc _⟩
    · exact filled_plug.mpr
        ⟨filledSlot_leaf _, (Ctx.same_fixKeys _ _).filled (filled_plug.mp h₁.filled).2⟩
    · rw [fst_plug, Ctx.path_fixKeys]
      exact hheight
    · intro hcut hvalid
      obtain ⟨hx, hkeys⟩ := (valid_plug_iff c _).mp (hcut.valid_insert value hvalid s.addr)
      refine (valid_plug_iff _ _).mpr ⟨?_, Ctx.keysAt_fixKeys hkeys.loose _⟩
      rw [Ctx.xplug_fixKeys]
      exact hx
  · exact ⟨t', c, hrun, ⟨h', h₁.sized, h₁.filled, h₁.height⟩,
      fun hcut hvalid => hcut.valid_insert _ hvalid s.addr, rfl, rfl, hwrites', hrefs', hnext⟩

omit [LinearOrder K] [Inhabited K] in
/-- The path may be split: some node on it has room, or it may grow. -/
theorem splitFits_of_room {l level : Nat} {c : Ctx K Value l} {s : Slot K Value (l + 1)}
    (h : Holds t others (c.plug s)) (hsized : c.Sized layout.nodeSize)
    (hroom : level + c.path.length + 2 ≤ pathSize ∨
      ∃ p ∈ c.path, ∃ n, t.size p = some n ∧ n < layout.nodeSize) :
    SplitFits layout c level := by
  induction c generalizing level with
  | top =>
      rcases hroom with hroom | ⟨p, hp, -⟩
      · exact hroom
      · cases hp
  | up f c ih =>
      obtain ⟨hsize, -, hupper⟩ := hsized
      rcases Nat.lt_or_eq_of_le hsize with hlt | heq
      · exact Or.inl hlt
      · refine Or.inr ⟨heq, ih h hupper ?_⟩
        rcases hroom with hroom | ⟨p, hp, n, hn, hlt⟩
        · simp only [Ctx.path, List.length_cons] at hroom
          exact Or.inl (by omega)
        · rcases List.mem_cons.mp hp with rfl | hp
          · have hbody := Holds.bodyAt_node (c := c) (s := f.plug s) h
            have hlen : (f.plug s).entries.length = f.left.length + f.right.length + 1 := by
              simp
              omega
            rw [Frame.addr_plug] at hbody
            rw [size_of_bodyAt hbody, hlen, heq] at hn
            cases hn
            exact absurd hlt (lt_irrefl _)
          · exact Or.inr ⟨p, hp, n, hn, hlt⟩

omit [LinearOrder K] [Inhabited K] in
theorem newRefs_of_next {t'' : PersistentTree K B} (h : t''.nodes.next = t'.nodes.next) (x : Ptr) :
    newRefs t t'' x = newRefs t t' x := by
  cases x with
  | block b => rfl
  | node p => simp only [newRefs, h]

omit [LinearOrder K] [Inhabited K] in
theorem newRefs_same (h : t'.nodes.next = t.nodes.next) (x : Ptr) : newRefs t t' x = 0 := by
  cases x with
  | block b => rfl
  | node p =>
      have : ¬ (t.nodes.next ≤ p ∧ p < t'.nodes.next) := by omega
      simp only [newRefs, this, if_false]

/-- A full leaf split in two halves. -/
theorem Shaped.split (h : Shaped layout t others (c.plug s))
    (hfull : s.bindings.length = layout.nodeSize) (hfits : SplitFits layout c 0) :
    ∃ t' w, t.splitPath layout 0 (s.addr :: c.path)
        = some (t', s.addr :: w.addr :: w.ctx.path, t.nodes.next :: w.addr :: w.ctx.path) ∧
      SplitStep layout t t' others c s w (.leaf s.addr (s.bindings.take (layout.nodeSize / 2)))
        (.leaf t.nodes.next (s.bindings.drop (layout.nodeSize / 2))) ∧
      Shaped layout t' others
        (w.plug (.leaf s.addr (s.bindings.take (layout.nodeSize / 2)))
          (.leaf t.nodes.next (s.bindings.drop (layout.nodeSize / 2)))) ∧
      (Valid (c.plug s) → Valid
        (w.plug (.leaf s.addr (s.bindings.take (layout.nodeSize / 2)))
          (.leaf t.nodes.next (s.bindings.drop (layout.nodeSize / 2))))) := by
  have htwo := layout.two_le_nodeSize
  have hheight := h.height
  rw [fst_plug] at hheight
  obtain ⟨t', w, left, right, hrun, hstep, hheight'⟩ :=
    splitPath_spec _ rfl h.holds hfits hheight
  have hlen : s.entries.length = layout.nodeSize := hfull
  have hleft : left = .leaf s.addr (s.bindings.take (layout.nodeSize / 2)) := by
    rw [hstep.left_eq, hlen]
    rfl
  have hright : right = .leaf t.nodes.next (s.bindings.drop (layout.nodeSize / 2)) := by
    rw [hstep.right_eq, hlen]
    rfl
  subst hleft hright
  refine ⟨t', w, hrun, hstep, ⟨hstep.holds, ?_, ?_, ?_⟩, ?_⟩
  · obtain ⟨hs, hc⟩ := sized_plug.mp h.sized
    refine hstep.grown.sized htwo hc ⟨?_, fun _ _ => trivial⟩ ⟨?_, fun _ _ => trivial⟩
    · change (s.bindings.take _).length ≤ _
      rw [List.length_take]
      omega
    · change (s.bindings.drop _).length ≤ _
      rw [List.length_drop]
      omega
  · exact hstep.grown.filled (filled_plug.mp h.filled).2 (filledSlot_leaf _) (filledSlot_leaf _)
  · rw [← w.plug_first, fst_plug, Twins.path_first, List.length_cons]
    omega
  · intro hvalid
    refine hstep.grown.valid_plug ?_ ?_ ?_
    · change s.bindings.take (layout.nodeSize / 2) ≠ []
      rw [ne_eq, List.take_eq_nil_iff, ← List.length_eq_zero_iff]
      omega
    · change s.bindings.drop (layout.nodeSize / 2) ≠ []
      rw [ne_eq, List.drop_eq_nil_iff]
      omega
    · have hwhole : (Slot.node s.addr (s.bindings.take (layout.nodeSize / 2)
          ++ s.bindings.drop (layout.nodeSize / 2)) : Slot K Value 1) = s := by
        rw [List.take_append_drop]
        rfl
      rw [← hwhole] at hvalid
      exact hvalid

/-- The key belongs to the right half. -/
theorem Cut.inRight {w : Twins K Value 0} {m p q : Nat} (hcut : Cut key c s left right)
    (hgrown : Grown layout.nodeSize c (.leaf p (s.bindings.take m)) (.leaf q (s.bindings.drop m)) w)
    (hloose : c.Loose) (hm : 0 < m) (hside : m ≤ left.length) (hdrop : s.bindings.drop m ≠ []) :
    Cut key (w.second (.leaf p (s.bindings.take m))) (.leaf q (s.bindings.drop m)) (left.drop m)
      right := by
  obtain ⟨hkey, -, -⟩ := hgrown.keys hloose
  obtain ⟨-, htrail⟩ := hgrown.bounds hloose
  have htake : s.bindings.take m = left.take m := by
    rw [hcut.bindings, List.take_append_of_le_length hside]
  refine ⟨?_, fun b hb => hcut.left_lt b (List.mem_of_mem_drop hb), hcut.lt_right, ?_, ?_⟩
  · rw [Slot.bindings_leaf, hcut.bindings, List.drop_append_of_le_length hside]
  · have hlo : (w.second (.leaf p (s.bindings.take m))).loOf = ↑(lastKey (left.take m)) := by
      simp only [Twins.second, Ctx.loOf, lastOr_append, lastOr_cons, lastOr_nil]
      rw [hkey]
      change ((lastKey (s.bindings.take m) : K) : WithBot K) = _
      rw [htake]
    rw [hlo, WithBot.coe_lt_coe]
    have hne : left.take m ≠ [] := by
      rw [ne_eq, List.take_eq_nil_iff, ← List.length_eq_zero_iff]
      omega
    obtain ⟨es, e, hes⟩ := (List.eq_nil_or_concat (left.take m)).resolve_left hne
    rw [List.concat_eq_append] at hes
    rw [hes, lastKey_concat]
    exact hcut.left_lt e (List.mem_of_mem_take (by rw [hes]; simp))
  · intro hfalse
    have hc : c.trailOf = false := htrail.symm.trans hfalse
    have hlast : lastKey (s.bindings.drop m) = lastKey s.bindings := by
      rw [← lastKey_append_of_ne_nil (s.bindings.take m) hdrop, List.take_append_drop]
    rw [Slot.bindings_leaf, hlast]
    exact hcut.hi hc

/-- The key belongs to the left half. -/
theorem Cut.inLeft {w : Twins K Value 0} {m p q : Nat} (hcut : Cut key c s left right)
    (hgrown : Grown layout.nodeSize c (.leaf p (s.bindings.take m)) (.leaf q (s.bindings.drop m)) w)
    (hloose : c.Loose) (hside : left.length < m) (hlen : m ≤ s.bindings.length) :
    Cut key (w.first (.leaf q (s.bindings.drop m))) (.leaf p (s.bindings.take m)) left
      (right.take (m - left.length)) := by
  obtain ⟨hlo, -⟩ := hgrown.bounds hloose
  have htake : s.bindings.take m = left ++ right.take (m - left.length) := by
    rw [hcut.bindings, List.take_append, List.take_of_length_le (by omega)]
  refine ⟨htake, hcut.left_lt, fun b hb => hcut.lt_right b (List.mem_of_mem_take hb), ?_, ?_⟩
  · rw [Twins.first, Ctx.loOf, hlo]
    exact hcut.lo
  · intro _
    have hne : right.take (m - left.length) ≠ [] := by
      rw [hcut.bindings, List.length_append] at hlen
      rw [ne_eq, List.take_eq_nil_iff, ← List.length_eq_zero_iff]
      omega
    obtain ⟨es, e, hes⟩ :=
      (List.eq_nil_or_concat (right.take (m - left.length))).resolve_left hne
    rw [List.concat_eq_append] at hes
    rw [Slot.bindings_leaf, htake, lastKey_append_of_ne_nil _ hne, hes, lastKey_concat]
    exact le_of_lt (hcut.lt_right e (List.mem_of_mem_take (by rw [hes]; simp)))

end Cut

omit [LinearOrder K] [Inhabited K] in
theorem WritesTo.trans_new {path path' : List Nat} {t'' : PersistentTree K B}
    (h : WritesTo path t t') (h' : WritesTo path' t' t'')
    (hpath : ∀ p ∈ path', p ∈ path ∨ t.nodes.next ≤ p) : WritesTo path t t'' := by
  refine ⟨le_trans h.1 h'.1, ?_⟩
  intro p hp hne
  rw [h'.2 p (lt_of_lt_of_le hp h.1) ?_, h.2 p hp hne]
  intro hmem
  rcases hpath p hmem with hmem | hle
  · exact hne hmem
  · omega

structure InsertStep (layout : NodeLayout) (t t' : PersistentTree K B) (others : Ptr → Nat)
    (path : List Nat) (flat : List (K × Value)) (tree : Root K Value) : Prop where
  shaped : Shaped layout t' others tree
  flat : flatRoot tree = flat
  writes : WritesTo path t t'
  refs : ∀ x, t'.refsOf x = t.refsOf x + newRefs t t' x

variable (key) in
/-- The insertion into a leaf; a full leaf is split, and the half with the place is taken. -/
theorem insertAt_spec {c : Ctx K Value 0} {s : Slot K Value 1} {left right : List (K × Value)}
    (h : Shaped layout t (plus others (.block value.blockPtr)) (c.plug s))
    (hbindings : s.bindings = left ++ right)
    (hfits : s.bindings.length = layout.nodeSize → SplitFits layout c 0) :
    ∃ t' tree, t.insertAt layout (s.addr :: c.path) left.length key value = some t' ∧
      InsertStep layout t t' others (s.addr :: c.path)
        (c.before ++ (left ++ (key, value) :: right) ++ c.after) tree ∧
      (Cut key c s left right → Valid (c.plug s) → Valid tree) := by
  have htwo := layout.two_le_nodeSize
  have hbody : t.bodyAt s.addr = some (.leaf s.bindings) := h.holds.bodyAt_node
  have hle : s.bindings.length ≤ layout.nodeSize := (sized_plug.mp h.sized).1.1
  rcases Nat.lt_or_eq_of_le hle with hroom | hfull
  · refine ⟨_, _, ?_, ⟨h.insert key hbindings hroom, ?_, writesTo_setBody t List.mem_cons_self _, ?_⟩,
      fun hcut hvalid => hcut.valid_insert _ hvalid s.addr⟩
    · simp only [insertAt, List.head?_cons, leafEntries_of_bodyAt hbody, Option.bind_eq_bind,
        Option.bind_some, hroom, if_true]
      exact insertLeaf_eq hbindings key value h.holds hroom
    · rw [flatRoot_plug, flatOf_leaf, Slot.bindings_leaf]
    · intro x
      rw [refsOf_setBody, newRefs_same (next_setBody t _ _), add_zero]
  · obtain ⟨t₁, w, hrun, hstep, h₁, hvalid₁⟩ := h.split hfull (hfits hfull)
    obtain ⟨hbefore, hafter⟩ := hstep.grown.before_after
    have hloose : Valid (c.plug s) → c.Loose := fun hvalid => ((valid_plug_iff c s).mp hvalid).2.loose
    have hlen : left.length + right.length = layout.nodeSize := by
      rw [← hfull, hbindings, List.length_append]
    have hnotroom : ¬ s.bindings.length < layout.nodeSize := by omega
    have hbody₁ : t₁.bodyAt s.addr = some (.leaf (s.bindings.take (layout.nodeSize / 2))) :=
      Holds.bodyAt_node (c := w.first (.leaf t.nodes.next (s.bindings.drop (layout.nodeSize / 2))))
        (s := .leaf s.addr (s.bindings.take (layout.nodeSize / 2))) hstep.holds
    have hhalf : (s.bindings.take (layout.nodeSize / 2)).length = layout.nodeSize / 2 := by
      rw [List.length_take]
      omega
    have hpath : ∀ p ∈ w.addr :: w.ctx.path, p ∈ s.addr :: c.path ∨ t.nodes.next ≤ p :=
      fun p hp => (hstep.path p hp).imp_left (List.mem_cons_of_mem _)
    by_cases hside : layout.nodeSize / 2 ≤ left.length
    · have hdrop : s.bindings.drop (layout.nodeSize / 2) ≠ [] := by
        rw [ne_eq, List.drop_eq_nil_iff]
        omega
      have hright : (Slot.leaf t.nodes.next (s.bindings.drop (layout.nodeSize / 2))).bindings =
          left.drop (layout.nodeSize / 2) ++ right := by
        rw [Slot.bindings_leaf, hbindings, List.drop_append_of_le_length hside]
      rw [← w.plug_second] at h₁ hvalid₁
      have hroom₁ : (s.bindings.drop (layout.nodeSize / 2)).length < layout.nodeSize := by
        rw [List.length_drop]
        omega
      have hinsert := insertLeaf_eq hright key value h₁.holds hroom₁
      obtain ⟨t₂, c₂, hkeys, h₂, hvalid₂, hbefore₂, hafter₂, hwrites₂, hrefs₂, hnext₂⟩ :=
        h₁.insertKeys key hright hroom₁
      refine ⟨t₂, _, ?_, ⟨h₂, ?_, ?_, ?_⟩, ?_⟩
      · rw [List.length_drop, Slot.addr_leaf] at hinsert hkeys
        rw [Twins.path_second] at hkeys
        simp only [insertAt, List.head?_cons, leafEntries_of_bodyAt hbody, Option.bind_eq_bind,
          Option.bind_some, hnotroom, if_false, hrun, leafEntries_of_bodyAt hbody₁, hhalf, hside,
          if_true, hinsert, hkeys]
      · have htake : s.bindings.take (layout.nodeSize / 2) = left.take (layout.nodeSize / 2) := by
          rw [hbindings, List.take_append_of_le_length hside]
        rw [flatRoot_plug, flatOf_leaf, Slot.bindings_leaf, hbefore₂, hafter₂, ← hbefore, ← hafter]
        simp only [Twins.second, Ctx.before, Ctx.after, Twins.before, Twins.after, flatOf_append,
          flatOf_cons, flatOf_nil, flat_succ, flatOf_leaf, Slot.bindings_leaf, htake,
          List.append_nil, List.append_assoc]
        rw [← List.append_assoc (left.take _), List.take_append_drop]
      · refine hstep.writes.trans_new hwrites₂ ?_
        intro p hp
        rcases List.mem_cons.mp hp with rfl | hp
        · exact Or.inr le_rfl
        · exact hpath p hp
      · intro x
        rw [hrefs₂, hstep.refs, newRefs_of_next hnext₂]
      · intro hcut hvalid
        exact hvalid₂ (hcut.inRight hstep.grown (hloose hvalid) (by omega) hside hdrop)
          (hvalid₁ hvalid)
    · have hright : (Slot.leaf s.addr (s.bindings.take (layout.nodeSize / 2))).bindings =
          left ++ right.take (layout.nodeSize / 2 - left.length) := by
        rw [Slot.bindings_leaf, hbindings, List.take_append, List.take_of_length_le (by omega)]
      rw [← w.plug_first] at h₁ hvalid₁
      have hroom₁ : (s.bindings.take (layout.nodeSize / 2)).length < layout.nodeSize := by omega
      have hinsert := insertLeaf_eq hright key value h₁.holds hroom₁
      obtain ⟨t₂, c₂, hkeys, h₂, hvalid₂, hbefore₂, hafter₂, hwrites₂, hrefs₂, hnext₂⟩ :=
        h₁.insertKeys key hright hroom₁
      refine ⟨t₂, _, ?_, ⟨h₂, ?_, ?_, ?_⟩, ?_⟩
      · rw [Slot.addr_leaf] at hinsert hkeys
        rw [Twins.path_first] at hkeys
        simp only [insertAt, List.head?_cons, leafEntries_of_bodyAt hbody, Option.bind_eq_bind,
          Option.bind_some, hnotroom, if_false, hrun, leafEntries_of_bodyAt hbody₁, hhalf, hside,
          hinsert, hkeys]
      · have hdrop : s.bindings.drop (layout.nodeSize / 2)
            = right.drop (layout.nodeSize / 2 - left.length) := by
          rw [hbindings, List.drop_append, List.drop_of_length_le (by omega), List.nil_append]
        rw [flatRoot_plug, flatOf_leaf, Slot.bindings_leaf, hbefore₂, hafter₂, ← hbefore, ← hafter]
        simp only [Twins.first, Ctx.before, Ctx.after, Twins.before, Twins.after,
          flatOf_cons, flat_succ, flatOf_leaf, Slot.bindings_leaf, hdrop,
          List.append_assoc, List.cons_append]
        rw [← List.append_assoc (right.take _), List.take_append_drop]
      · refine hstep.writes.trans_new hwrites₂ ?_
        intro p hp
        rcases List.mem_cons.mp hp with rfl | hp
        · exact Or.inl List.mem_cons_self
        · exact hpath p hp
      · intro x
        rw [hrefs₂, hstep.refs, newRefs_of_next hnext₂]
      · intro hcut hvalid
        exact hvalid₂ (hcut.inLeft hstep.grown (hloose hvalid) (by omega) (by omega))
          (hvalid₁ hvalid)

def HasRoom (layout : NodeLayout) (t : PersistentTree K B) (path : List Nat) : Prop :=
  path.length < pathSize ∨ ∃ p ∈ path, ∃ n, t.size p = some n ∧ n < layout.nodeSize

instance (layout : NodeLayout) (t : PersistentTree K B) (path : List Nat) :
    Decidable (HasRoom layout t path) :=
  have (p : Nat) : Decidable (∃ n, t.size p = some n ∧ n < layout.nodeSize) :=
    inferInstanceAs (Decidable (∃ n ∈ t.size p, n < layout.nodeSize))
  inferInstanceAs (Decidable (_ ∨ _))

omit [LinearOrder K] [Inhabited K] in
theorem splitFits_withPath {l : Nat} (c : Ctx K Value l) (ps : List Nat) (level : Nat) :
    SplitFits layout (c.withPath ps) level ↔ SplitFits layout c level := by
  induction c generalizing ps level with
  | top => rfl
  | up f c ih =>
      cases ps with
      | nil => rfl
      | cons p ps => exact or_congr_right (and_congr_right fun _ => ih ps (level + 1))

omit [LinearOrder K] [Inhabited K] in
/-- A full leaf can be split. -/
theorem HasRoom.splitFits {c : Ctx K Value 0} {s : Slot K Value 1}
    (hroom : HasRoom layout t (s.addr :: c.path)) (h : Holds t others (c.plug s))
    (hsized : c.Sized layout.nodeSize) (hfull : s.bindings.length = layout.nodeSize) :
    SplitFits layout c 0 := by
  refine splitFits_of_room h hsized ?_
  rcases hroom with hlen | ⟨p, hp, n, hn, hlt⟩
  · rw [List.length_cons] at hlen
    exact Or.inl (by omega)
  · rcases List.mem_cons.mp hp with rfl | hp
    · have hsize : t.size s.addr = some s.bindings.length := size_of_bodyAt h.bodyAt_node
      rw [hsize, hfull] at hn
      cases hn
      exact absurd hlt (lt_irrefl _)
    · exact Or.inr ⟨p, hp, n, hn, hlt⟩

omit [LinearOrder K] [Inhabited K] in
theorem InsertStep.refs_old {path : List Nat} {flat : List (K × Value)} {tree : Root K Value}
    (hstep : InsertStep layout t t' others path flat tree) {p : Nat} (hp : p < t.nodes.next) :
    t'.refsOf (.node p) = t.refsOf (.node p) := by
  have hnot : ¬ (t.nodes.next ≤ p ∧ p < t'.nodes.next) := by omega
  simp [hstep.refs, newRefs, hnot]

omit [LinearOrder K] [Inhabited K] in
theorem refsOf_node_addSize (t : PersistentTree K B) (delta : Int) (p : Nat) :
    (t.addSize delta).refsOf (.node p) = t.refsOf (.node p) := refsOf_addSize t delta _

omit [LinearOrder K] [Inhabited K] in
theorem Holds.sameBodies {tree : Root K Value} (h : Holds t others tree) (hsame : SameBodies t t')
    (hrefs : ∀ x, t'.refsOf x = t.refsOf x) : Holds t' others tree := by
  refine ⟨?_, h.nodup, hsame.root.trans h.root, ?_, ?_⟩
  · exact Rep.congr h.rep fun p _ => hsame.body p
  · intro x
    rw [hrefs, hsame.slots, hsame.root]
    exact h.balanced x
  · rw [hrefs, hsame.root]
    exact h.owned

omit [LinearOrder K] [Inhabited K] in
theorem Keeps.of_sameBodies (hsame : SameBodies t t')
    (hrefs : ∀ p, t'.refsOf (.node p) = t.refsOf (.node p)) : Keeps others t t' :=
  ⟨fun _ _ _ hrep => hrep.congr fun p _ => hsame.body p, fun p _ hone => (hrefs p).trans hone⟩

variable (key) in
/-- The new entry stands behind the first `left.length` ones of its leaf, whatever splits this
takes, and what others hold is kept. -/
theorem insertTo_spec {c : Ctx K Value 0} {s : Slot K Value 1} {left right : List (K × Value)}
    (h : Shaped layout t (plus others (.block value.blockPtr)) (c.plug s))
    (hbindings : s.bindings = left ++ right) (hroom : HasRoom layout t (s.addr :: c.path)) :
    ∃ t' tree, t.insertTo layout ⟨s.addr :: c.path, left.length⟩ key value = some t' ∧
      Shaped layout t' others tree ∧
      flatRoot tree = c.before ++ (left ++ (key, value) :: right) ++ c.after ∧
      Keeps others t t' ∧ (Cut key c s left right → Valid (c.plug s) → Valid tree) := by
  obtain ⟨t₁, p, ps, hrun₁, hpath, h₁, hstep₁⟩ := h.updatePath
  have hbindings₁ : (Slot.leaf p s.bindings : Slot K Value 1).bindings = left ++ right := hbindings
  obtain ⟨t₂, tree, hrun₂, hstep₂, hvalid₂⟩ := insertAt_spec key h₁ hbindings₁ fun hfull =>
    (splitFits_withPath c ps 0).mpr
      (hroom.splitFits h.holds (sized_plug.mp h.sized).2 hfull)
  have howned₁ : Owned t₁ ((Slot.leaf p s.bindings : Slot K Value 1).addr :: (c.withPath ps).path) := by
    rw [hpath]
    exact hstep₁.owned
  have hsame := sameBodies_addSize t₂ 1
  refine ⟨t₂.addSize 1, tree, ?_, ⟨?_, hstep₂.shaped.sized, hstep₂.shaped.filled,
    hstep₂.shaped.height⟩, ?_, ?_, ?_⟩
  · rw [hpath, Slot.addr_leaf] at hrun₂
    simp only [insertTo, hrun₁, Option.bind_eq_bind, Option.bind_some, hrun₂]
  · exact hstep₂.shaped.holds.sameBodies hsame (refsOf_addSize t₂ 1)
  · rw [hstep₂.flat, Ctx.before_withPath, Ctx.after_withPath]
  · have hkeeps := h₁.holds.keeps howned₁ hstep₂.writes.2 fun q b hb _ =>
      hstep₂.refs_old (lt_next_of_bodyAt hb)
    exact (keeps_plus.mp (hstep₁.keeps.trans hkeeps)).trans
      (.of_sameBodies hsame (refsOf_node_addSize t₂ 1))
  · intro hcut hvalid
    refine hvalid₂ ⟨hcut.bindings, hcut.left_lt, hcut.lt_right, ?_, ?_⟩ (valid_withPath hvalid p ps)
    · rw [c.loOf_withPath]
      exact hcut.lo
    · rw [c.trailOf_withPath]
      exact hcut.hi

def plusOld (others : Ptr → Nat) : Option Value → Ptr → Nat
  | none => others
  | some v => plus others (.block v.blockPtr)

/-- The leaf of a key and the place of the key in it. -/
theorem WellFormed.locate {tree : Root K Value} (h : WellFormed layout t others tree) (key : K) :
    ∃ (c : Ctx K Value 0) (s : Slot K Value 1) (left right : List (K × Value)),
      t.locate layout key = some ⟨s.addr :: c.path, left.length⟩ ∧ Located tree key c s ∧
      s.bindings = left ++ right ∧ (∀ b ∈ left, b.1 < key) ∧ ∀ b ∈ right, key ≤ b.1 := by
  obtain ⟨c, s, hloc, hrun⟩ := locate_spec layout h.holds h.valid h.height key
  obtain ⟨left, right, hbindings, hidx, hleft, hright⟩ := exists_cut (hloc.sorted h.valid) key
  rw [hidx] at hrun
  exact ⟨c, s, left, right, hrun, hloc, hbindings, hleft, hright⟩

/-- The key has a value. -/
theorem assign_present {c : Ctx K Value 0} {s : Slot K Value 1} {left right : List (K × Value)}
    {old : Value} (h : Shaped layout t (plus others (.block value.blockPtr)) (c.plug s))
    (hbindings : s.bindings = left ++ (key, old) :: right) :
    ∃ t₁ p ps, t.updatePath (s.addr :: c.path) = some (t₁, p :: ps) ∧
      t₁.leafEntries p = some (left ++ (key, old) :: right) ∧
      Shaped layout (t₁.setBody p (.leaf (left ++ (key, value) :: right)))
        (plus others (.block old.blockPtr))
        ((c.withPath ps).plug (.leaf p (left ++ (key, value) :: right))) ∧
      Keeps others t (t₁.setBody p (.leaf (left ++ (key, value) :: right))) ∧
      (Valid (c.plug s) →
        Valid ((c.withPath ps).plug (.leaf p (left ++ (key, value) :: right)))) := by
  obtain ⟨t₁, p, ps, hrun₁, hpath, h₁, hstep₁⟩ := h.updatePath
  rw [hbindings] at h₁
  have hbody : t₁.bodyAt p = some (.leaf (left ++ (key, old) :: right)) := h₁.holds.bodyAt_node
  have howned₁ : Owned t₁ (p :: (c.withPath ps).path) := by
    rw [hpath]
    exact hstep₁.owned
  have hwrites := writesTo_setBody t₁ (List.mem_cons_self (a := p) (l := (c.withPath ps).path))
    (.leaf (left ++ (key, value) :: right))
  refine ⟨t₁, p, ps, hrun₁, leafEntries_of_bodyAt hbody, h₁.setLeaf ?_ ?_, ?_, ?_⟩
  · intro x
    rw [Slot.bindings_leaf, ptrs_insert, ptrs_insert]
    unfold plus
    omega
  · have hle : (left ++ (key, old) :: right).length ≤ layout.nodeSize :=
      (sized_plug.mp h₁.sized).1.1
    simpa using hle
  · refine (keeps_plus.mp hstep₁.keeps).trans (keeps_plus.mp (h₁.holds.keeps howned₁ hwrites.2 ?_))
    intro q b _ _
    exact refsOf_setBody _ _ _ _
  · intro hvalid
    have hvalid₁ := valid_withPath hvalid p ps
    obtain ⟨hx, -⟩ := (valid_plug_iff _ _).mp hvalid₁
    obtain ⟨hlo, hsorted⟩ := chain_leaf_iff.mp hx.chain_at.1
    change ∀ b ∈ s.bindings, _ at hlo
    change Sorted s.bindings at hsorted
    rw [hbindings] at hlo hsorted
    have hfst : (left ++ (key, value) :: right).map Prod.fst
        = (left ++ (key, old) :: right).map Prod.fst := by simp
    refine valid_setLeaf hvalid₁ (by simp) (chain_leaf_iff.mpr ⟨?_, ?_⟩) (Or.inl ?_)
    · intro b hb
      obtain ⟨b', hb', heq⟩ := List.mem_map.mp (hfst ▸ List.mem_map_of_mem (f := Prod.fst) hb)
      exact heq ▸ hlo b' hb'
    · have hkeys := List.pairwise_map.mpr hsorted
      rw [← hfst] at hkeys
      exact List.pairwise_map.mp hkeys
    · change lastKey (left ++ (key, value) :: right) = lastKey s.bindings
      rw [hbindings, lastKey_append_cons, lastKey_append_cons, lastKey_cons, lastKey_cons]

/-- `assign`: the key has the new value, and nothing else has changed. -/
theorem assign_spec {tree : Root K Value}
    (h : WellFormed layout t (plus others (.block value.blockPtr)) tree)
    (hroom : toMap (flatRoot tree) key = none →
      ∀ iter, t.locate layout key = some iter → HasRoom layout t iter.path) :
    ∃ t' tree', t.assign layout key value = some (t', toMap (flatRoot tree) key) ∧
      WellFormed layout t' (plusOld others (toMap (flatRoot tree) key)) tree' ∧
      toMap (flatRoot tree') = Function.update (toMap (flatRoot tree)) key (some value) ∧
      Keeps others t t' := by
  obtain ⟨c, s, left, right, hrun, hloc, hbindings, hleft, hright⟩ := h.locate key
  have hsorted := h.valid.sorted
  have hleaf : Sorted (left ++ right) := hbindings ▸ hloc.sorted h.valid
  obtain ⟨hbefore, hafter⟩ := hloc.sep h.valid
  obtain ⟨hplug, hlo, hhi⟩ := hloc
  subst hplug
  have hvalid := h.valid
  rw [flatRoot_plug, flatOf_leaf, hbindings] at hsorted hroom ⊢
  have hentries : t.leafEntries s.addr = some (left ++ right) := by
    rw [← hbindings]
    exact leafEntries_of_bodyAt h.holds.bodyAt_node
  have hget : (left ++ right)[left.length]? = right.head? := by
    rw [List.getElem?_append_right le_rfl, Nat.sub_self, List.head?_eq_getElem?]
  by_cases hhead : ∃ old rest, right = (key, old) :: rest
  · obtain ⟨old, rest, rfl⟩ := hhead
    obtain ⟨t₁, p, ps, hrun₁, hentries₁, h', hkeeps, hvalid'⟩ := assign_present h.toShaped hbindings
    have hold : toMap (c.before ++ (left ++ (key, old) :: rest) ++ c.after) key = some old :=
      hsorted.toMap_eq_some_iff.mpr (by simp)
    have hflat : flatRoot ((c.withPath ps).plug (.leaf p (left ++ (key, value) :: rest)))
        = c.before ++ (left ++ (key, value) :: rest) ++ c.after := by
      rw [flatRoot_plug, flatOf_leaf, Slot.bindings_leaf, Ctx.before_withPath, Ctx.after_withPath]
    refine ⟨_, _, ?_, by rw [hold]; exact ⟨h', hvalid' hvalid⟩, ?_, hkeeps⟩
    · simp only [assign, hrun, Option.bind_eq_bind, Option.bind_some, List.head?_cons, hentries,
        hget, if_true, hrun₁, hentries₁, modify_append_cons, hold]
    · have hsorted' := (hvalid' hvalid).sorted
      rw [hflat] at hsorted' ⊢
      exact toMap_replace hsorted hsorted'
  · have habsent : ∀ b ∈ right, key < b.1 := by
      cases right with
      | nil => exact fun b hb => absurd hb List.not_mem_nil
      | cons e rest =>
          have hne : e.1 ≠ key := fun heq => hhead ⟨e.2, rest, by rw [← heq]⟩
          have hlt : key < e.1 := lt_of_le_of_ne (hright e List.mem_cons_self) (Ne.symm hne)
          obtain ⟨-, hrest, -⟩ := sorted_append.mp hleaf
          intro b hb
          rcases List.mem_cons.mp hb with rfl | hb
          · exact hlt
          · exact lt_trans hlt ((List.pairwise_cons.mp hrest).1 b hb)
    have hkeys : ∀ b ∈ c.before ++ (left ++ right) ++ c.after, b.1 ≠ key := by
      intro b hb
      simp only [List.mem_append] at hb
      rcases hb with (hb | hb | hb) | hb
      · exact ne_of_lt (hbefore b hb)
      · exact ne_of_lt (hleft b hb)
      · exact ne_of_gt (habsent b hb)
      · exact ne_of_gt (hafter b hb)
    have hnone : toMap (c.before ++ (left ++ right) ++ c.after) key = none :=
      hsorted.toMap_eq_none_iff.mpr hkeys
    have hcut : Cut key c s left right := ⟨hbindings, hleft, habsent, hlo, hhi⟩
    obtain ⟨t', tree', hrun', h', hflat, hkeeps, hvalid'⟩ :=
      insertTo_spec key h.toShaped hbindings (hroom hnone _ hrun)
    refine ⟨t', tree', ?_, hnone ▸ ⟨h', hvalid' hcut hvalid⟩, ?_, hkeeps⟩
    · simp only [assign, hrun, Option.bind_eq_bind, Option.bind_some, List.head?_cons, hentries,
        hget, hnone]
      cases right with
      | nil => simp only [List.head?_nil, hrun', Option.bind_some]
      | cons e rest =>
          have hne : e.1 ≠ key := fun heq => hhead ⟨e.2, rest, by rw [← heq]⟩
          simp only [List.head?_cons, hne, if_false, hrun', Option.bind_some]
    · have hsorted' := (hvalid' hcut hvalid).sorted
      rw [hflat] at hsorted' ⊢
      exact toMap_insert hsorted hsorted' hkeys

end Memoria.PersistentTree

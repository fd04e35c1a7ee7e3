import Memoria.Lib.FilledTree
import Memoria.Proof.TreeFind
import Memoria.Proof.TreeSplit

/-!
# Changes of a leaf

The leaf that a key belongs to is the only one whose bindings an update changes. What the tree is
after the update follows from what the leaf has become.
-/

namespace Memoria.PersistentTree

open Lib

variable {K B : Type} [LinearOrder K] {key : K}

/-- The place of a key cuts the entries of a leaf. -/
theorem exists_cut {es : List (K × Value)} (hsorted : Sorted es) (key : K) :
    ∃ left right, es = left ++ right ∧ leafIdx key es = left.length ∧
      (∀ b ∈ left, b.1 < key) ∧ ∀ b ∈ right, key ≤ b.1 := by
  have hle := leafIdx_le key es
  refine ⟨es.take (leafIdx key es), es.drop (leafIdx key es), (List.take_append_drop _ _).symm, ?_,
    ?_, ?_⟩
  · rw [List.length_take]
    omega
  · intro b hb
    obtain ⟨k, hk, rfl⟩ := List.mem_iff_getElem.mp hb
    rw [List.length_take] at hk
    rw [List.getElem_take]
    refine not_le.mp fun hkey => ?_
    have := (leafIdx_le_iff hsorted (by omega)).mp hkey
    omega
  · intro b hb
    obtain ⟨k, hk, rfl⟩ := List.mem_iff_getElem.mp hb
    rw [List.length_drop] at hk
    rw [List.getElem_drop]
    exact (leafIdx_le_iff hsorted (by omega)).mpr (Nat.le_add_right _ _)

theorem insertIdx_append_length {α : Type} (as bs : List α) (x : α) :
    (as ++ bs).insertIdx as.length x = as ++ x :: bs := by
  induction as with
  | nil => rfl
  | cons a as ih => simpa using ih

/-- A new binding in its place. -/
theorem sorted_insert {left right : List (K × Value)} {v : Value}
    (hsorted : Sorted (left ++ right)) (hleft : ∀ b ∈ left, b.1 < key)
    (hright : ∀ b ∈ right, key ≤ b.1) (habsent : ∀ b ∈ right, b.1 ≠ key) :
    Sorted (left ++ (key, v) :: right) := by
  obtain ⟨hl, hr, hlr⟩ := sorted_append.mp hsorted
  have habove : ∀ b ∈ right, key < b.1 := fun b hb =>
    lt_of_le_of_ne (hright b hb) (Ne.symm (habsent b hb))
  refine sorted_append.mpr ⟨hl, List.pairwise_cons.mpr ⟨habove, hr⟩, ?_⟩
  intro a ha b hb
  rcases List.mem_cons.mp hb with rfl | hb
  · exact hleft a ha
  · exact hlr a ha b hb

section Map

variable {before after left right : List (K × Value)} {old v : Value}

theorem toMap_insert (hsorted : Sorted (before ++ (left ++ right) ++ after))
    (hsorted' : Sorted (before ++ (left ++ (key, v) :: right) ++ after))
    (habsent : ∀ b ∈ before ++ (left ++ right) ++ after, b.1 ≠ key) :
    toMap (before ++ (left ++ (key, v) :: right) ++ after)
      = Function.update (toMap (before ++ (left ++ right) ++ after)) key (some v) := by
  refine hsorted.toMap_assign hsorted' fun b => ?_
  have hne := habsent b
  simp only [List.mem_append, List.mem_cons] at hne ⊢
  tauto

/-- The binding of a key is the only one. -/
theorem key_ne_of_sorted (hsorted : Sorted (before ++ (left ++ (key, old) :: right) ++ after)) :
    ∀ b, b ∈ before ∨ b ∈ left ∨ b ∈ right ∨ b ∈ after → b.1 ≠ key := by
  obtain ⟨hbl, -, hafter⟩ := sorted_append.mp hsorted
  obtain ⟨-, hleaf, hbefore⟩ := sorted_append.mp hbl
  obtain ⟨-, hright, hleft⟩ := sorted_append.mp hleaf
  rintro b (hb | hb | hb | hb)
  · exact ne_of_lt (hbefore b hb (key, old) (by simp))
  · exact ne_of_lt (hleft b hb (key, old) (by simp))
  · exact ne_of_gt ((List.pairwise_cons.mp hright).1 b hb)
  · exact ne_of_gt (hafter (key, old) (by simp) b hb)

theorem toMap_replace (hsorted : Sorted (before ++ (left ++ (key, old) :: right) ++ after))
    (hsorted' : Sorted (before ++ (left ++ (key, v) :: right) ++ after)) :
    toMap (before ++ (left ++ (key, v) :: right) ++ after)
      = Function.update (toMap (before ++ (left ++ (key, old) :: right) ++ after)) key
        (some v) := by
  refine hsorted.toMap_assign hsorted' fun b => ?_
  have hne := key_ne_of_sorted hsorted b
  have heq : b = (key, old) → b.1 = key := fun h => by rw [h]
  simp only [List.mem_append, List.mem_cons]
  tauto

theorem toMap_erase (hsorted : Sorted (before ++ (left ++ (key, old) :: right) ++ after))
    (hsorted' : Sorted (before ++ (left ++ right) ++ after)) :
    toMap (before ++ (left ++ right) ++ after)
      = Function.update (toMap (before ++ (left ++ (key, old) :: right) ++ after)) key none := by
  refine hsorted.toMap_remove hsorted' fun b => ?_
  have hne := key_ne_of_sorted hsorted b
  have heq : b = (key, old) → b.1 = key := fun h => by rw [h]
  simp only [List.mem_append, List.mem_cons]
  tauto

end Map

section Trees

variable [Inhabited K] {layout : NodeLayout} {t t' : PersistentTree K B} {others others' : Ptr → Nat}

def plus (others : Ptr → Nat) (x : Ptr) : Ptr → Nat := fun y => others y + if y = x then 1 else 0

structure Shaped (layout : NodeLayout) (t : PersistentTree K B) (others : Ptr → Nat)
    (tree : Root K Value) : Prop where
  holds : Holds t others tree
  sized : Sized layout.nodeSize tree
  filled : Filled tree
  height : tree.1 < pathSize

structure WellFormed (layout : NodeLayout) (t : PersistentTree K B) (others : Ptr → Nat)
    (tree : Root K Value) : Prop extends Shaped layout t others tree where
  valid : Valid tree

omit [LinearOrder K] [Inhabited K] in
/-- New entries in a leaf. What the leaf gains has to come from elsewhere. -/
theorem Holds.setLeaf {c : Ctx K Value 0} {s : Slot K Value 1} (h : Holds t others (c.plug s))
    {es : List (K × Value)}
    (hcount : ∀ x, others' x + (ptrs (.leaf es : Body K)).count x
      = others x + (ptrs (.leaf s.bindings : Body K)).count x) :
    Holds (t.setBody s.addr (.leaf es)) others' (c.plug (.leaf s.addr es)) := by
  have hbody : t.bodyAt s.addr = some (.leaf s.bindings) := h.bodyAt_node
  have hnodup := h.nodup_at
  refine ⟨?_, ?_, ?_, ?_, ?_⟩
  · refine (repRoot_plug c _).mpr ⟨⟨bodyAt_setBody_self hbody _, fun _ _ => trivial⟩, ?_⟩
    refine ((repRoot_plug c s).mp h.rep).2.congr fun q hq => bodyAt_setBody_of_ne t ?_ _
    rintro rfl
    exact List.disjoint_of_nodup_append hnodup List.mem_cons_self hq
  · refine (rootAddrs_plug c _).nodup_iff.mpr ?_
    have haddrs : ∀ r : Slot K Value 1, addrs 1 r = [r.addr] := by
      intro r
      simp [addrs]
    rw [haddrs] at hnodup ⊢
    exact hnodup
  · rw [root_setBody, h.root]
    exact Option.some.inj ((Lib.getLast_path c s).symm.trans (Lib.getLast_path c (.leaf s.addr es)))
  · intro x
    have hset := slots_setBody hbody (.leaf es) x
    have hbal := h.balanced x
    have hx := hcount x
    rw [refsOf_setBody, root_setBody]
    unfold withRoot at hbal ⊢
    omega
  · rw [refsOf_setBody, root_setBody]
    exact h.owned

omit [LinearOrder K] [Inhabited K] in
/-- Blocks are not nodes. -/
theorem keeps_plus {b : Nat} : Keeps (plus others (.block b)) t t' ↔ Keeps others t t' := by
  have heq : ∀ p, plus others (.block b) (.node p) = others (.node p) := fun _ => rfl
  refine ⟨fun h => ⟨fun l s hext => h.rep l s ?_, fun p hext => h.refs p ?_⟩,
    fun h => ⟨fun l s hext => h.rep l s ?_, fun p hext => h.refs p ?_⟩⟩
  all_goals simpa only [heq] using hext

structure PathStep (t t' : PersistentTree K B) (others : Ptr → Nat) (path path' : List Nat) :
    Prop where
  owned : Owned t' path'
  keeps : Keeps others t t'
  cases : (t' = t ∧ path' = path) ∨
    (∃ q ∈ path.dropLast, 1 < t.refsOf (.node q)) ∧ Cloned t t' path path'

omit [LinearOrder K] [Inhabited K] in
/-- The same nodes beside the path, and the same entries at its end. -/
theorem Shaped.of_same {c c' : Ctx K Value 0} {s s' : Slot K Value 1}
    (h : Shaped layout t others (c.plug s)) (hsame : Ctx.Same c c') (hs : s'.entries = s.entries)
    (hholds : Holds t' others' (c'.plug s')) : Shaped layout t' others' (c'.plug s') := by
  refine ⟨hholds, ?_, ?_, ?_⟩
  · obtain ⟨hlen, hc⟩ := sized_plug.mp h.sized
    refine sized_plug.mpr ⟨?_, hsame.sized hc⟩
    rw [SizedSlot, hs]
    exact hlen
  · exact filled_plug.mpr ⟨filledSlot_leaf _, hsame.filled (filled_plug.mp h.filled).2⟩
  · have hheight := h.height
    rw [fst_plug] at hheight ⊢
    rw [hsame.length_path]
    exact hheight

omit [LinearOrder K] [Inhabited K] in
theorem Shaped.updatePath {c : Ctx K Value 0} {s : Slot K Value 1}
    (h : Shaped layout t others (c.plug s)) :
    ∃ t' p ps, t.updatePath (s.addr :: c.path) = some (t', p :: ps) ∧
      (c.withPath ps).path = ps ∧
      Shaped layout t' others ((c.withPath ps).plug (.leaf p s.bindings)) ∧
      PathStep t t' others (s.addr :: c.path) (p :: ps) := by
  obtain ⟨t', p, ps, hrun, hlen, h', howned, hkeeps, hcases⟩ := updatePath_spec h.holds
  have hpath := c.path_withPath hlen
  exact ⟨t', p, ps, hrun, hpath, h.of_same (Ctx.same_withPath c ps) rfl h', howned, hkeeps,
    hcases⟩

omit [LinearOrder K] [Inhabited K] in
/-- The bindings of a leaf are replaced. -/
theorem Shaped.setLeaf {c : Ctx K Value 0} {s : Slot K Value 1}
    (h : Shaped layout t others (c.plug s)) {es : List (K × Value)}
    (hcount : ∀ x, others' x + (ptrs (.leaf es : Body K)).count x
      = others x + (ptrs (.leaf s.bindings : Body K)).count x)
    (hlen : es.length ≤ layout.nodeSize) :
    Shaped layout (t.setBody s.addr (.leaf es)) others' (c.plug (.leaf s.addr es)) := by
  refine ⟨h.holds.setLeaf hcount, ?_, ?_, ?_⟩
  · exact sized_plug.mpr ⟨⟨hlen, fun _ _ => trivial⟩, (sized_plug.mp h.sized).2⟩
  · exact filled_plug.mpr ⟨filledSlot_leaf _, (filled_plug.mp h.filled).2⟩
  · have hheight := h.height
    rw [fst_plug] at hheight ⊢
    exact hheight

/-- The tree is still a search tree; on the right edge the keys above the leaf may then lag
behind. -/
theorem valid_setLeaf {c : Ctx K Value 0} {s : Slot K Value 1} (h : Valid (c.plug s))
    {p : Nat} {es : List (K × Value)} (hne : c.path ≠ [] → es ≠ [])
    (hchain : Chain (VSlot 0) c.trailOf c.loOf (Slot.leaf p es).entries)
    (hlast : lastKey es = lastKey s.bindings ∨ c.trailOf = true ∧ (c.path ≠ [] → s.bindings ≠ [])) :
    Valid (c.plug (.leaf p es)) := by
  obtain ⟨hx, hkeys⟩ := (valid_plug_iff c s).mp h
  refine (valid_plug_iff c _).mpr ⟨hx.replace ?_ hchain ?_, ?_⟩
  · rintro (hpath | hl)
    · exact hne hpath
    · exact absurd rfl hl
  · intro htrail
    rcases hlast with heq | ⟨htrail', -⟩
    · exact le_of_eq heq
    · rw [htrail] at htrail'
      cases htrail'
  · rcases hlast with heq | ⟨htrail, hs⟩
    · change c.KeysAt (lastKey es)
      rw [heq]
      exact hkeys
    · by_cases hpath : c.path = []
      · rw [Ctx.eq_top_of_path hpath]
        trivial
      · exact hkeys.of_trail htrail (hx.chain_at.1.lt_lastKey (hs hpath))

end Trees

end Memoria.PersistentTree

import Memoria.Proof.TreeRemove

/-!
# Updates of a tree that is out of order

A leaf that stays in the tree without entries leaves keys above it out of date, and a search may then
end in a leaf that the key does not belong to. The updates are defined all the same, and they still
leave alone what nobody but the tree itself holds on to.
-/

namespace Memoria

open Lib

theorem Body.findKey_le {K : Type} [Inhabited K] [LinearOrder K] (layout : NodeLayout)
    (keys : List K) (key : K) : findKey layout keys key ≤ keys.length := by
  unfold findKey
  split
  · exact le_rfl
  · dsimp only
    split
    · exact le_rfl
    · rename_i hfind
      obtain ⟨hlt, -⟩ := List.findIdx?_eq_some_iff_getElem.mp hfind
      rw [List.length_take, List.length_drop] at hlt
      omega

namespace PersistentTree

variable {K B : Type} [LinearOrder K] [Inhabited K] {layout : NodeLayout} {key : K} {value : Value}
  {t : PersistentTree K B} {others : Ptr → Nat} {tree : Root K Value} {l : Nat}

variable (key) in
def foundValue : List (K × Value) → Option Value
  | e :: _ => if e.1 = key then some e.2 else none
  | [] => none

variable (layout key) in
/-- Some child is always found. -/
theorem exists_findChild {es : List (K × Slot K Value (l + 1))} (hne : es ≠ []) :
    ∃ left e right, es = left ++ e :: right ∧
      findChild layout (pointers es) key = some e.2.addr := by
  have hle := Body.findKey_le layout ((pointers es).map Prod.fst) key
  rw [List.length_map, length_pointers] at hle
  have hpos : 0 < es.length := List.length_pos_of_ne_nil hne
  unfold findChild
  generalize hi : Body.findKey layout ((pointers es).map Prod.fst) key = i at hle
  generalize hj : (if i = (pointers es).length then (pointers es).length - 1 else i) = j
  have hlt : j < es.length := by
    rw [length_pointers] at hj
    split at hj <;> omega
  refine ⟨es.take j, es[j], es.drop (j + 1), ?_, ?_⟩
  · rw [List.getElem_cons_drop, List.take_append_drop]
  · simp only [hj]
    simp [pointers, hlt]

variable (layout key) in
/-- Whatever the keys are, the descent ends in a leaf. -/
theorem descend_filled {c : Ctx K Value l} {s : Slot K Value (l + 1)}
    (h : Holds t others (c.plug s)) (hfilled : Filled (c.plug s)) :
    ∃ (c' : Ctx K Value 0) (s' : Slot K Value 1) (left right : List (K × Value)),
      c'.plug s' = c.plug s ∧ s'.bindings = left ++ right ∧
      (∀ fuel, l < fuel → t.locateIn layout key fuel s.addr c.path
        = some ⟨s'.addr :: c'.path, left.length⟩) ∧
      ∀ fuel, l < fuel → t.findValueIn layout key fuel s.addr = some (foundValue key right) := by
  induction l with
  | zero =>
      obtain ⟨n, hn, hbody⟩ := read_of_bodyAt h.bodyAt_node
      have hleaf : n.body = .leaf s.bindings := hbody
      have hle := Body.findKey_le layout (s.bindings.map Prod.fst) key
      rw [List.length_map] at hle
      generalize hi : Body.findKey layout (s.bindings.map Prod.fst) key = i at hle
      have hlen : (s.bindings.take i).length = i := by
        rw [List.length_take]
        omega
      have hhead : s.bindings[i]? = (s.bindings.drop i).head? := by
        rw [List.head?_drop]
      refine ⟨c, s, s.bindings.take i, s.bindings.drop i, rfl, (List.take_append_drop _ _).symm,
        ?_, ?_⟩
      · intro fuel hfuel
        obtain ⟨fuel, rfl⟩ := Nat.exists_eq_succ_of_ne_zero (by omega : fuel ≠ 0)
        simp only [locateIn, hn, Option.bind_eq_bind, Option.bind_some, hleaf, hi, hlen]
      · intro fuel hfuel
        obtain ⟨fuel, rfl⟩ := Nat.exists_eq_succ_of_ne_zero (by omega : fuel ≠ 0)
        simp only [findValueIn, hn, Option.bind_eq_bind, Option.bind_some, hleaf, hi, hhead]
        cases s.bindings.drop i <;> rfl
  | succ l ih =>
      obtain ⟨hslot, -⟩ := filled_plug.mp hfilled
      obtain ⟨n, hn, hbody⟩ := read_of_bodyAt h.bodyAt_node
      have hbranch : n.body = .branch (pointers s.entries) := hbody
      obtain ⟨left, e, right, hes, hfind⟩ := exists_findChild layout key (hslot.1 (Nat.succ_ne_zero l))
      let f : Frame K Value l := ⟨s.addr, left, e.1, right⟩
      have hplug : (Ctx.up f c).plug e.2 = c.plug s := by
        rw [Ctx.plug, Frame.plug, ← hes, Slot.node_eta]
      rw [← hplug] at h hfilled ⊢
      obtain ⟨c', s', left', right', heq, hbindings, hlocate, hvalue⟩ := ih h hfilled
      refine ⟨c', s', left', right', heq, hbindings, ?_, ?_⟩
      · intro fuel hfuel
        obtain ⟨fuel, rfl⟩ := Nat.exists_eq_succ_of_ne_zero (by omega : fuel ≠ 0)
        simp only [locateIn, hn, Option.bind_eq_bind, Option.bind_some, hbranch, hfind]
        exact hlocate fuel (by omega)
      · intro fuel hfuel
        obtain ⟨fuel, rfl⟩ := Nat.exists_eq_succ_of_ne_zero (by omega : fuel ≠ 0)
        simp only [findValueIn, hn, Option.bind_eq_bind, Option.bind_some, hbranch, hfind]
        exact hvalue fuel (by omega)

/-- `locate` and `find` end at the same place of a leaf. -/
theorem Shaped.locate (h : Shaped layout t others tree) (key : K) :
    ∃ (c : Ctx K Value 0) (s : Slot K Value 1) (left right : List (K × Value)),
      c.plug s = tree ∧ s.bindings = left ++ right ∧
      t.locate layout key = some ⟨s.addr :: c.path, left.length⟩ ∧
      t.find layout key = some (foundValue key right) := by
  have hroot : t.root = tree.2.addr := h.holds.root
  obtain ⟨c, s, left, right, hplug, hbindings, hlocate, hfind⟩ := descend_filled layout key
    (c := (.top : Ctx K Value tree.1)) (s := tree.2) h.holds h.filled
  have hlt := lt_of_lt_of_le h.filled.lt_length_rootAddrs h.holds.length_rootAddrs_le
  refine ⟨c, s, left, right, hplug, hbindings, ?_, ?_⟩
  · rw [PersistentTree.locate, hroot]
    exact hlocate pathSize h.height
  · rw [PersistentTree.find, hroot, hfind _ hlt]

theorem remove_at_end {c : Ctx K Value 0} {s : Slot K Value 1}
    (h : Holds t others (c.plug s))
    (hrun : t.locate layout key = some ⟨s.addr :: c.path, s.bindings.length⟩) :
    t.remove layout key = some (t, false) := by
  have hentries : t.leafEntries s.addr = some s.bindings :=
    leafEntries_of_bodyAt h.bodyAt_node
  simp only [remove, hrun, isEnd, List.head?_cons, hentries, Option.bind_eq_bind, Option.bind_some,
    le_refl, decide_true, if_true]

theorem remove_inside {c : Ctx K Value 0} {s : Slot K Value 1} {idx : Nat}
    (h : Holds t others (c.plug s))
    (hrun : t.locate layout key = some ⟨s.addr :: c.path, idx⟩) (hidx : idx < s.bindings.length) :
    t.remove layout key
      = (t.removeFrom layout ⟨s.addr :: c.path, idx⟩).map fun t' => (t', true) := by
  have hentries : t.leafEntries s.addr = some s.bindings :=
    leafEntries_of_bodyAt h.bodyAt_node
  have hnot : ¬ s.bindings.length ≤ idx := by omega
  simp only [remove, hrun, isEnd, List.head?_cons, hentries, Option.bind_eq_bind, Option.bind_some,
    hnot, decide_false, Bool.false_eq_true, if_false]
  cases t.removeFrom layout ⟨s.addr :: c.path, idx⟩ <;> rfl

theorem Shaped.assign (h : Shaped layout t (plus others (.block value.blockPtr)) tree)
    (hroom : t.find layout key = some none →
      ∀ iter, t.locate layout key = some iter → HasRoom layout t iter.path) :
    ∃ t' old tree', t.assign layout key value = some (t', old) ∧
      Shaped layout t' (plusOld others old) tree' ∧ Keeps others t t' := by
  obtain ⟨c, s, left, right, rfl, hbindings, hrun, hfind⟩ := h.locate key
  have hentries : t.leafEntries s.addr = some (left ++ right) := by
    rw [← hbindings]
    exact leafEntries_of_bodyAt h.holds.bodyAt_node
  have hget : (left ++ right)[left.length]? = right.head? := by
    rw [List.getElem?_append_right le_rfl, Nat.sub_self, List.head?_eq_getElem?]
  have hinsert : t.find layout key = some none →
      ∃ t' tree', t.insertTo layout ⟨s.addr :: c.path, left.length⟩ key value = some t' ∧
        Shaped layout t' others tree' ∧ Keeps others t t' := by
    intro hnone
    obtain ⟨t', tree', hrun', h', -, hkeeps, -⟩ :=
      insertTo_spec key h hbindings (hroom hnone _ hrun)
    exact ⟨t', tree', hrun', h', hkeeps⟩
  cases right with
  | nil =>
      obtain ⟨t', tree', hrun', h', hkeeps⟩ := hinsert hfind
      refine ⟨t', none, tree', ?_, h', hkeeps⟩
      simp only [PersistentTree.assign, hrun, Option.bind_eq_bind, Option.bind_some,
        List.head?_cons, hentries, hget, List.head?_nil, hrun']
  | cons e rest =>
      by_cases hkey : e.1 = key
      · obtain ⟨k, old⟩ := e
        obtain rfl : k = key := hkey
        obtain ⟨t₁, p, ps, hrun₁, hentries₁, h', hkeeps, -⟩ := assign_present h hbindings
        refine ⟨_, some old, _, ?_, h', hkeeps⟩
        simp only [PersistentTree.assign, hrun, Option.bind_eq_bind, Option.bind_some,
          List.head?_cons, hentries, hget, if_true, hrun₁, hentries₁, modify_append_cons]
      · rw [foundValue, if_neg hkey] at hfind
        obtain ⟨t', tree', hrun', h', hkeeps⟩ := hinsert hfind
        refine ⟨t', none, tree', ?_, h', hkeeps⟩
        simp only [PersistentTree.assign, hrun, Option.bind_eq_bind, Option.bind_some,
          List.head?_cons, hentries, hget, hkey, if_false, hrun']

theorem Shaped.remove (h : Shaped layout t others tree)
    (hok : ∀ iter, t.locate layout key = some iter → MergesApart layout t iter) :
    ∃ t' found tree', t.remove layout key = some (t', found) ∧ Shaped layout t' others tree' ∧
      Keeps others t t' := by
  obtain ⟨c, s, left, right, rfl, hbindings, hrun, -⟩ := h.locate key
  cases right with
  | nil =>
      rw [List.append_nil] at hbindings
      rw [← hbindings] at hrun
      exact ⟨t, false, _, remove_at_end h.holds hrun, h, .refl others t⟩
  | cons e rest =>
      have hlt : left.length < s.bindings.length := by simp [hbindings]
      obtain ⟨t', tree', hrun', h', -, hkeeps, -⟩ := removeFrom_spec h hbindings (hok _ hrun)
      refine ⟨t', true, tree', ?_, h', hkeeps⟩
      rw [remove_inside h.holds hrun hlt, hrun', Option.map_some]

end PersistentTree

end Memoria

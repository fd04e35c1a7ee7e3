import Memoria.Lib.FilledTree
import Memoria.Proof.TreeKeys

/-!
# Finding keys

The two-level search in a node is a search in its keys, and the descent from the root leads to the
only leaf that can hold the key. From a leaf the iterator goes to its neighbours.
-/

namespace Memoria

open Lib

namespace Body

variable {K : Type} {layout : NodeLayout}

theorem length_index [Inhabited K] (keys : List K) : (index layout keys).length
    = (keys.length + layout.nodeIndexSize - 1) / layout.nodeIndexSize := by
  simp [index]

variable [LinearOrder K]

/-- In sorted keys a bound is met from the first place on. -/
theorem le_getElem_iff {keys : List K} (hsorted : keys.Pairwise (· < ·)) (key : K) {j : Nat}
    (hj : j < keys.length) :
    key ≤ keys[j] ↔ keys.findIdx (fun k => decide (key ≤ k)) ≤ j := by
  constructor
  · intro hle
    by_contra hlt
    have hnot := List.not_of_lt_findIdx (p := fun k => decide (key ≤ k)) (Nat.lt_of_not_le hlt)
    simp [hle] at hnot
  · intro hle
    have hlt : keys.findIdx (fun k => decide (key ≤ k)) < keys.length := lt_of_le_of_lt hle hj
    have hfound : key ≤ keys[keys.findIdx (fun k => decide (key ≤ k))] := by
      simpa using List.findIdx_getElem (w := hlt)
    rcases Nat.lt_or_eq_of_le hle with hlt' | heq
    · exact le_trans hfound (le_of_lt (List.pairwise_iff_getElem.mp hsorted _ _ hlt hj hlt'))
    · simpa [heq] using hfound

variable [Inhabited K]

/-- The entry of a group in the index is the last key of the group. -/
theorem le_index_iff {keys : List K} (hsorted : keys.Pairwise (· < ·)) (key : K) {c : Nat}
    (hc : c < (index layout keys).length) (hne : keys ≠ []) :
    key ≤ (index layout keys)[c] ↔ keys.findIdx (fun k => decide (key ≤ k))
      ≤ min ((c + 1) * layout.nodeIndexSize) keys.length - 1 := by
  have hpos : 0 < keys.length := List.length_pos_of_ne_nil hne
  have hlt : min ((c + 1) * layout.nodeIndexSize) keys.length - 1 < keys.length := by omega
  rw [← le_getElem_iff hsorted key hlt]
  simp [index, hlt]

/-- `find_key` finds the first key that is not less. -/
theorem findKey_eq {keys : List K} (hsorted : keys.Pairwise (· < ·)) (key : K) :
    findKey layout keys key = keys.findIdx fun k => decide (key ≤ k) := by
  have hm : 0 < layout.nodeIndexSize := layout.nodeIndexSize_pos
  generalize hi : keys.findIdx (fun k => decide (key ≤ k)) = i
  have hle : i ≤ keys.length := hi ▸ List.findIdx_le_length
  rcases Nat.lt_or_eq_of_le hle with hlt | hend
  · have hne : keys ≠ [] := by
      rintro rfl
      simp at hlt
    -- The group of the key, and its place in there.
    have hstart : i / layout.nodeIndexSize * layout.nodeIndexSize ≤ i := Nat.div_mul_le_self _ _
    have hstop : i < (i / layout.nodeIndexSize + 1) * layout.nodeIndexSize := by
      rw [Nat.mul_comm]
      exact Nat.lt_mul_div_succ i hm
    have hsucc : (i / layout.nodeIndexSize + 1) * layout.nodeIndexSize
        = i / layout.nodeIndexSize * layout.nodeIndexSize + layout.nodeIndexSize :=
      Nat.succ_mul _ _
    have hgroup : i / layout.nodeIndexSize < (index layout keys).length := by
      rw [length_index]
      refine (Nat.le_div_iff_mul_le hm).mpr ?_
      rw [Nat.succ_eq_add_one, hsucc]
      omega
    have hfind : (index layout keys).findIdx? (fun k => decide (key ≤ k))
        = some (i / layout.nodeIndexSize) := by
      rw [List.findIdx?_eq_some_iff_getElem]
      refine ⟨hgroup, ?_, ?_⟩
      · rw [decide_eq_true_eq, le_index_iff hsorted key hgroup hne, hi]
        omega
      · intro j hj
        rw [decide_eq_true_eq, le_index_iff hsorted key (lt_trans hj hgroup) hne, hi]
        have hmul : (j + 1) * layout.nodeIndexSize
            ≤ i / layout.nodeIndexSize * layout.nodeIndexSize := Nat.mul_le_mul_right _ hj
        have hpos : 0 < (j + 1) * layout.nodeIndexSize := Nat.mul_pos (Nat.succ_pos j) hm
        omega
    have hin : ((keys.drop (i / layout.nodeIndexSize * layout.nodeIndexSize)).take
        layout.nodeIndexSize).findIdx? (fun k => decide (key ≤ k))
        = some (i - i / layout.nodeIndexSize * layout.nodeIndexSize) := by
      rw [List.findIdx?_eq_some_iff_getElem]
      have hlen : i - i / layout.nodeIndexSize * layout.nodeIndexSize
          < ((keys.drop (i / layout.nodeIndexSize * layout.nodeIndexSize)).take
            layout.nodeIndexSize).length := by
        rw [List.length_take, List.length_drop]
        omega
      refine ⟨hlen, ?_, ?_⟩
      · rw [decide_eq_true_eq, List.getElem_take, List.getElem_drop,
          le_getElem_iff hsorted key, hi]
        omega
      · intro j hj
        rw [decide_eq_true_eq, List.getElem_take, List.getElem_drop,
          le_getElem_iff hsorted key, hi]
        omega
    simp only [findKey, hfind, hin]
    omega
  · have hnone : (index layout keys).findIdx? (fun k => decide (key ≤ k)) = none := by
      rw [List.findIdx?_eq_none_iff]
      intro k hk
      obtain ⟨c, hc, rfl⟩ := List.mem_iff_getElem.mp hk
      have hne : keys ≠ [] := by
        rintro rfl
        rw [length_index, List.length_nil, Nat.zero_add,
          Nat.div_eq_of_lt (Nat.sub_lt hm Nat.one_pos)] at hc
        omega
      have hpos : 0 < keys.length := List.length_pos_of_ne_nil hne
      rw [decide_eq_false_iff_not, le_index_iff hsorted key hc hne, hi]
      omega
    simp only [findKey, hnone]
    exact hend.symm

end Body

namespace PersistentTree

variable {K B : Type} [Inhabited K] [LinearOrder K] {layout : NodeLayout}
  {t t' : PersistentTree K B} {others : Ptr → Nat} {l : Nat} {key : K}

variable (layout) in
/-- `find_child` chooses the child whose range has the key. -/
theorem findChild_spec {trail : Bool} {lo : WithBot K} {es : List (K × Slot K Value (l + 1))}
    (hchain : Chain (VSlot (l + 1)) trail lo es) (hne : es ≠ []) (hlo : lo < key)
    (hhi : trail = false → key ≤ lastKey es) :
    ∃ left e right, es = left ++ e :: right ∧
      findChild layout (pointers es) key = some e.2.addr ∧ lastOr lo left < key ∧
      ((trail && right.isEmpty) = false → key ≤ e.1) := by
  have hsorted : (es.map Prod.fst).Pairwise (· < ·) := by
    rw [List.pairwise_map]
    exact hchain.keys_sorted.2
  have hkeys : (pointers es).map Prod.fst = es.map Prod.fst := by
    simp [pointers]
  have hpos : 0 < es.length := List.length_pos_of_ne_nil hne
  generalize hi : (es.map Prod.fst).findIdx (fun k => decide (key ≤ k)) = i
  have hle : i ≤ es.length := by
    have hidx : (es.map Prod.fst).findIdx (fun k => decide (key ≤ k)) ≤ (es.map Prod.fst).length :=
      List.findIdx_le_length
    rwa [hi, List.length_map] at hidx
  generalize hj : (if i = es.length then es.length - 1 else i) = j
  have hjlt : j < es.length := by
    split at hj <;> omega
  have hle_iff : ∀ k, (hk : k < es.length) → (key ≤ es[k].1 ↔ i ≤ k) := by
    intro k hk
    have := Body.le_getElem_iff hsorted key (j := k) (by simpa using hk)
    rw [hi] at this
    simpa using this
  refine ⟨es.take j, es[j], es.drop (j + 1), ?_, ?_, ?_, ?_⟩
  · rw [List.getElem_cons_drop, List.take_append_drop]
  · simp only [findChild, hkeys, Body.findKey_eq hsorted, hi, length_pointers, hj]
    simp [pointers, hjlt]
  · refine lastOr_lt hlo ?_
    intro e he
    obtain ⟨k, hk, rfl⟩ := List.mem_iff_getElem.mp he
    rw [List.length_take] at hk
    rw [List.getElem_take]
    refine not_le.mp fun hkey => ?_
    have := (hle_iff k (by omega)).mp hkey
    split at hj <;> omega
  · intro hinner
    by_cases hend : i = es.length
    · rw [if_pos hend] at hj
      have hdrop : es.drop (j + 1) = [] := List.drop_eq_nil_iff.mpr (by omega)
      have htrail : trail = false := by simpa [hdrop] using hinner
      have hlast : lastKey es = es[j].1 := by
        conv_lhs => rw [← List.take_append_drop j es, ← List.getElem_cons_drop hjlt, hdrop]
        exact lastKey_concat _ _
      rw [← hlast]
      exact hhi htrail
    · rw [if_neg hend] at hj
      exact (hle_iff j hjlt).mpr (by omega)

structure Located (tree : Root K Value) (key : K) (c : Ctx K Value 0) (s : Slot K Value 1) :
    Prop where
  plug : c.plug s = tree
  lo : c.loOf < key
  hi : c.trailOf = false → key ≤ lastKey s.entries

def leafIdx (key : K) (es : List (K × Value)) : Nat :=
  (es.map Prod.fst).findIdx fun k => decide (key ≤ k)

def leafValue (key : K) (es : List (K × Value)) : Option Value :=
  match es[leafIdx key es]? with
  | some e => if e.1 = key then some e.2 else none
  | none => none

variable (layout key) in
/-- A search goes to the leaf where the key belongs, by induction on the levels below. -/
theorem descend_spec {c : Ctx K Value l} {s : Slot K Value (l + 1)}
    (h : Holds t others (c.plug s)) (hvalid : Valid (c.plug s)) (hlo : c.loOf < key)
    (hhi : c.trailOf = false → key ≤ lastKey s.entries) :
    ∃ (c' : Ctx K Value 0) (s' : Slot K Value 1), Located (c.plug s) key c' s' ∧
      (∀ fuel, l < fuel → t.locateIn layout key fuel s.addr c.path
        = some ⟨s'.addr :: c'.path, leafIdx key s'.bindings⟩) ∧
      ∀ fuel, l < fuel → t.findValueIn layout key fuel s.addr
        = some (leafValue key s'.bindings) := by
  induction l with
  | zero =>
      obtain ⟨hx, -⟩ := (valid_plug_iff c s).mp hvalid
      have hchain := hx.chain_at.1
      obtain ⟨n, hn, hbody⟩ := read_of_bodyAt h.bodyAt_node
      have hleaf : n.body = .leaf s.bindings := hbody
      have hsorted : (s.bindings.map Prod.fst).Pairwise (· < ·) := by
        rw [List.pairwise_map]
        exact hchain.keys_sorted.2
      refine ⟨c, s, ⟨rfl, hlo, hhi⟩, ?_, ?_⟩
      · intro fuel hfuel
        obtain ⟨fuel, rfl⟩ := Nat.exists_eq_succ_of_ne_zero (by omega : fuel ≠ 0)
        simp only [locateIn, hn, Option.bind_eq_bind, Option.bind_some, hleaf,
          Body.findKey_eq hsorted, leafIdx]
      · intro fuel hfuel
        obtain ⟨fuel, rfl⟩ := Nat.exists_eq_succ_of_ne_zero (by omega : fuel ≠ 0)
        simp only [findValueIn, hn, Option.bind_eq_bind, Option.bind_some, hleaf,
          Body.findKey_eq hsorted, leafValue, leafIdx]
        cases s.bindings[(s.bindings.map Prod.fst).findIdx fun k => decide (key ≤ k)]? <;> rfl
  | succ l ih =>
      obtain ⟨hx, -⟩ := (valid_plug_iff c s).mp hvalid
      have hchain := hx.chain_at.1
      obtain ⟨n, hn, hbody⟩ := read_of_bodyAt h.bodyAt_node
      have hne := hx.entries_ne_nil (Or.inr (Nat.succ_ne_zero l))
      obtain ⟨left, e, right, hes, hfind, hlo', hhi'⟩ := findChild_spec layout hchain hne
        hlo hhi
      let f : Frame K Value l := ⟨s.addr, left, e.1, right⟩
      have hplug : (Ctx.up f c).plug e.2 = c.plug s := by
        rw [Ctx.plug, Frame.plug, ← hes, Slot.node_eta]
      have hexact : (Ctx.up f c).trailOf = false → lastKey e.2.entries = e.1 := by
        rw [hes, chain_append] at hchain
        obtain ⟨-, ⟨-, -, -, hexact⟩, -⟩ := hchain
        exact hexact
      rw [← hplug] at h hvalid ⊢
      obtain ⟨c', s', hloc, hlocate, hvalue⟩ := ih h hvalid hlo'
        fun htrail => hexact htrail ▸ hhi' htrail
      have hbranch : n.body = .branch (pointers s.entries) := hbody
      refine ⟨c', s', hloc, ?_, ?_⟩
      · intro fuel hfuel
        obtain ⟨fuel, rfl⟩ := Nat.exists_eq_succ_of_ne_zero (by omega : fuel ≠ 0)
        simp only [locateIn, hn, Option.bind_eq_bind, Option.bind_some, hbranch, hfind]
        exact hlocate fuel (by omega)
      · intro fuel hfuel
        obtain ⟨fuel, rfl⟩ := Nat.exists_eq_succ_of_ne_zero (by omega : fuel ≠ 0)
        simp only [findValueIn, hn, Option.bind_eq_bind, Option.bind_some, hbranch, hfind]
        exact hvalue fuel (by omega)

/-- The bindings outside the leaf are on either side of the key. -/
theorem Located.sep {tree : Root K Value} {c : Ctx K Value 0} {s : Slot K Value 1}
    (h : Located tree key c s) (hvalid : Valid tree) :
    (∀ b ∈ c.before, b.1 < key) ∧ ∀ b ∈ c.after, key < b.1 := by
  obtain ⟨rfl, hlo, hhi⟩ := h
  obtain ⟨hx, -⟩ := (valid_plug_iff c s).mp hvalid
  refine ⟨?_, ?_⟩
  · intro b hb
    exact WithBot.coe_lt_coe.mp (lt_of_le_of_lt (hx.before_le b hb) hlo)
  · intro b hb
    cases htrail : c.trailOf with
    | true =>
        rw [Ctx.after_of_trailOf htrail] at hb
        cases hb
    | false =>
        have hpath : c.path ≠ [] := by
          intro hpath
          rw [Ctx.eq_top_of_path hpath] at htrail
          cases htrail
        have hne : s.entries ≠ [] := hx.entries_ne_nil (Or.inl hpath)
        have hsorted := hvalid.sorted
        rw [flatRoot_plug, flatOf_leaf, sorted_append] at hsorted
        obtain ⟨es, e, hes⟩ := (List.eq_nil_or_concat s.bindings).resolve_left hne
        rw [List.concat_eq_append] at hes
        have hlast : lastKey s.entries = e.1 := by
          change lastKey s.bindings = e.1
          rw [hes, lastKey_concat]
        refine lt_of_le_of_lt (hlast ▸ hhi htrail) (hsorted.2.2 e ?_ b hb)
        rw [hes]
        simp

theorem Located.sorted {tree : Root K Value} {c : Ctx K Value 0} {s : Slot K Value 1}
    (h : Located tree key c s) (hvalid : Valid tree) : Sorted s.bindings := by
  have hsorted := hvalid.sorted
  rw [← h.plug, flatRoot_plug, flatOf_leaf] at hsorted
  exact (sorted_append.mp (sorted_append.mp hsorted).1).2.1

theorem Located.toMap_eq {tree : Root K Value} {c : Ctx K Value 0} {s : Slot K Value 1}
    (h : Located tree key c s) (hvalid : Valid tree) :
    toMap (flatRoot tree) key = toMap s.bindings key := by
  obtain ⟨hbefore, hafter⟩ := h.sep hvalid
  have hsorted := hvalid.sorted
  rw [← h.plug, flatRoot_plug, flatOf_leaf] at hsorted ⊢
  rw [hsorted.toMap_append' hafter, (sorted_append.mp hsorted).1.toMap_append hbefore]

omit [Inhabited K] in
theorem leafIdx_le (key : K) (es : List (K × Value)) : leafIdx key es ≤ es.length := by
  have hidx : (es.map Prod.fst).findIdx (fun k => decide (key ≤ k)) ≤ (es.map Prod.fst).length :=
    List.findIdx_le_length
  rwa [List.length_map] at hidx

omit [Inhabited K] in
/-- The entries up to the place of a key are less, the others are not. -/
theorem leafIdx_le_iff {es : List (K × Value)} (hsorted : Sorted es) {k : Nat}
    (hk : k < es.length) : key ≤ es[k].1 ↔ leafIdx key es ≤ k := by
  have hkeys : (es.map Prod.fst).Pairwise (· < ·) := by
    rw [List.pairwise_map]
    exact hsorted
  have hiff := Body.le_getElem_iff hkeys key (j := k) (by simpa using hk)
  rw [List.getElem_map] at hiff
  exact hiff

omit [Inhabited K] in
theorem leafValue_eq {es : List (K × Value)} (hsorted : Sorted es) :
    leafValue key es = toMap es key := by
  unfold leafValue
  cases hget : es[leafIdx key es]? with
  | none =>
      symm
      rw [hsorted.toMap_eq_none_iff]
      rintro b hb rfl
      obtain ⟨k, hk, rfl⟩ := List.mem_iff_getElem.mp hb
      have hle := (leafIdx_le_iff hsorted hk).mp le_rfl
      rw [List.getElem?_eq_none_iff] at hget
      omega
  | some e =>
      obtain ⟨hlt, rfl⟩ := List.getElem?_eq_some_iff.mp hget
      dsimp only
      split
      · rename_i heq
        symm
        rw [hsorted.toMap_eq_some_iff]
        nth_rewrite 1 [← heq]
        exact List.getElem_mem hlt
      · rename_i hne
        symm
        rw [hsorted.toMap_eq_none_iff]
        rintro b hb rfl
        obtain ⟨k, hk, rfl⟩ := List.mem_iff_getElem.mp hb
        have hle := (leafIdx_le_iff hsorted hk).mp le_rfl
        rcases Nat.lt_or_eq_of_le hle with hlt' | heq
        · have hbelow := (leafIdx_le_iff hsorted hlt).mpr le_rfl
          have habove := List.pairwise_iff_getElem.mp hsorted _ _ hlt hk hlt'
          exact lt_irrefl _ (lt_of_le_of_lt hbelow habove)
        · exact hne (by simp [heq])

section Find

variable {tree : Root K Value}

omit [Inhabited K] [LinearOrder K] in
theorem Holds.length_rootAddrs_le (h : Holds t others tree) :
    (rootAddrs tree).length ≤ t.nodes.next := by
  have hsub : rootAddrs tree ⊆ List.range t.nodes.next := by
    intro p hp
    exact List.mem_range.mpr (h.lt_next hp)
  simpa using (h.nodup.subperm hsub).length_le

variable (layout) in
/-- `locate` and `find`: the leaf of the key, and what it has for it. -/
theorem locate_spec (h : Holds t others tree) (hvalid : Valid tree) (hheight : tree.1 < pathSize)
    (key : K) :
    ∃ (c : Ctx K Value 0) (s : Slot K Value 1), Located tree key c s ∧
      t.locate layout key = some ⟨s.addr :: c.path, leafIdx key s.bindings⟩ := by
  have hroot : t.root = tree.2.addr := h.root
  obtain ⟨c, s, hloc, hlocate, -⟩ := descend_spec layout key
    (c := (.top : Ctx K Value tree.1)) (s := tree.2) h hvalid (WithBot.bot_lt_coe key) nofun
  refine ⟨c, s, hloc, ?_⟩
  rw [locate, hroot]
  exact hlocate pathSize hheight

/-- A search in a search tree gives what the entries say. -/
theorem find_spec (h : Holds t others tree) (hvalid : Valid tree) (key : K) :
    t.find layout key = some (toMap (flatRoot tree) key) := by
  have hroot : t.root = tree.2.addr := h.root
  obtain ⟨c, s, hloc, -, hfind⟩ := descend_spec layout key
    (c := (.top : Ctx K Value tree.1)) (s := tree.2) h hvalid (WithBot.bot_lt_coe key) nofun
  have hlt := lt_of_lt_of_le hvalid.filled.lt_length_rootAddrs h.length_rootAddrs_le
  have hloc' : Located tree key c s := hloc
  rw [find, hroot, hfind _ hlt, leafValue_eq (hloc'.sorted hvalid), hloc'.toMap_eq hvalid]

end Find

end PersistentTree

end Memoria

import Mathlib.Tactic.SplitIfs
import Memoria.Lib.Run
import Memoria.NodeSearch

/-!
# The searches in a node of the copy-on-write tree

Every change of the keys ends with a new index, so the index of a node is that of its keys, and the
keys stay in order where the tree puts keys in order. A parent that takes the key of a child without
keys is the exception.
-/

namespace Memoria.NodeKeys

open Lib

variable {K : Type} {layout : NodeLayout}

section Index

def Indexed (layout : NodeLayout) (node : NodeKeys K) : Prop :=
  ∀ c < node.lastIdx layout,
    node.index c = node.keys (min (c * layout.nodeIndexSize + layout.nodeIndexSize) node.size - 1)

/-- There is an index key for every group that has a key. -/
theorem lt_lastIdx_iff (node : NodeKeys K) (c : ℕ) :
    c < node.lastIdx layout ↔ c * layout.nodeIndexSize < node.size := by
  have hpos := layout.nodeIndexSize_pos
  rw [lastIdx]
  split_ifs with hmod
  · have hsize := Nat.div_mul_cancel (Nat.dvd_of_mod_eq_zero hmod)
    conv => rhs; rw [← hsize]
    rw [Nat.add_zero, Nat.mul_lt_mul_right hpos]
  · rw [Nat.lt_succ_iff, Nat.le_div_iff_mul_le hpos, Nat.lt_iff_le_and_ne]
    refine (and_iff_left fun hsame => hmod ?_).symm
    rw [← hsame, Nat.mul_mod_left]

variable [Inhabited K]

@[simp] theorem reindex_size (node : NodeKeys K) : (node.reindex layout).size = node.size := by
  rw [reindex]
  dsimp only
  split_ifs <;> rfl

@[simp] theorem reindex_keys (node : NodeKeys K) : (node.reindex layout).keys = node.keys := by
  rw [reindex]
  dsimp only
  split_ifs <;> rfl

/-- The full groups are those in front of the last key. -/
theorem reindex_index {node : NodeKeys K} (hpos : 0 < node.size) :
    (node.reindex layout).index =
      Function.update
        (written (fun _ => default) 0 (node.size / layout.nodeIndexSize) fun c =>
          node.keys (c * layout.nodeIndexSize + layout.nodeIndexSize - 1))
        ((node.size - 1) / layout.nodeIndexSize) (node.keys (node.size - 1)) := by
  have hfull : (if node.size % layout.nodeIndexSize = 0 then node.size
      else node.size - node.size % layout.nodeIndexSize) / layout.nodeIndexSize =
        node.size / layout.nodeIndexSize := by
    split_ifs
    · rfl
    · rw [← Nat.div_mul_self_eq_mod_sub_self, Nat.mul_div_cancel _ layout.nodeIndexSize_pos]
  have hfold := foldl_update (fun _ => (default : K))
    (fun c => node.keys (c * layout.nodeIndexSize + layout.nodeIndexSize - 1)) 0
    (node.size / layout.nodeIndexSize)
  simp only [Nat.zero_add] at hfold
  rw [reindex]
  dsimp only
  rw [if_neg fun h => Nat.ne_of_gt hpos h.1, maxKey, if_neg (Nat.ne_of_gt hpos), hfull, hfold]

theorem reindex_indexed (node : NodeKeys K) : (node.reindex layout).Indexed layout := by
  intro c hc
  rw [lt_lastIdx_iff, reindex_size] at hc
  have hpos := layout.nodeIndexSize_pos
  rw [reindex_index (Nat.zero_lt_of_lt hc), reindex_keys, reindex_size]
  by_cases hlast : c = (node.size - 1) / layout.nodeIndexSize
  · have hend := Nat.lt_div_mul_add hpos (a := node.size - 1)
    rw [hlast, Function.update_self]
    congr 1
    omega
  · have hle : c ≤ (node.size - 1) / layout.nodeIndexSize :=
      (Nat.le_div_iff_mul_le hpos).mpr (Nat.le_sub_one_of_lt hc)
    have hlt : c + 1 ≤ (node.size - 1) / layout.nodeIndexSize := by omega
    have hmul := (Nat.le_div_iff_mul_le hpos).mp hlt
    rw [Nat.add_mul, Nat.one_mul] at hmul
    have hfull : c < node.size / layout.nodeIndexSize := by
      refine Nat.lt_of_succ_le ((Nat.le_div_iff_mul_le hpos).mpr ?_)
      rw [Nat.succ_mul]
      omega
    rw [Function.update_of_ne hlast]
    have hwritten := @written_of_mem K (fun _ => default)
      (fun c => node.keys (c * layout.nodeIndexSize + layout.nodeIndexSize - 1)) 0 _ c hfull
    rw [Nat.zero_add] at hwritten
    rw [hwritten]
    congr 1
    omega

end Index

section Searches

variable [LinearOrder K]

def Sorted (node : NodeKeys K) : Prop :=
  ∀ i j, i ≤ j → j < node.size → node.keys i ≤ node.keys j

theorem find?_range {n m : ℕ} {p : ℕ → Bool} (hm : m < n) (hp : p m = true)
    (hbefore : ∀ i < m, p i = false) : (List.range n).find? p = some m := by
  refine List.find?_range_eq_some.mpr ⟨hp, List.mem_range.mpr hm, fun i hi => ?_⟩
  rw [hbefore i hi]
  rfl

/-- The keys below the first index are less than the key, and the one there is not. -/
theorem first_spec (node : NodeKeys K) (key : K) :
    node.first key ≤ node.size ∧ (∀ i < node.first key, node.keys i < key) ∧
      (node.first key < node.size → key ≤ node.keys (node.first key)) := by
  rw [first]
  cases hfind : (List.range node.size).find? fun i => decide (key ≤ node.keys i) with
  | none =>
      have hnone := List.find?_range_eq_none.mp hfind
      refine ⟨le_rfl, fun i hi => ?_, fun hlt => absurd hlt (Nat.lt_irrefl _)⟩
      simpa using hnone i hi
  | some n =>
      obtain ⟨hkey, hmem, hbefore⟩ := List.find?_range_eq_some.mp hfind
      refine ⟨Nat.le_of_lt (List.mem_range.mp hmem), fun i hi => ?_, fun _ => of_decide_eq_true hkey⟩
      simpa using hbefore i hi

theorem Sorted.lt_first_iff {node : NodeKeys K} (hsorted : node.Sorted) (key : K) {i : ℕ}
    (hi : i < node.size) : node.keys i < key ↔ i < node.first key := by
  obtain ⟨-, hbefore, hkey⟩ := first_spec node key
  refine ⟨fun hlt => ?_, hbefore i⟩
  by_contra hge
  have hle := Nat.le_of_not_lt hge
  have hfirst := hkey (Nat.lt_of_le_of_lt hle hi)
  exact absurd hlt (not_lt_of_ge (hfirst.trans (hsorted _ _ hle hi)))

/-- The index key of a group is below `key` just where the first index is behind the group. -/
theorem Sorted.index_lt_iff {node : NodeKeys K} (hsorted : node.Sorted)
    (hindexed : node.Indexed layout) (key : K) {c : ℕ} (hc : c < node.lastIdx layout) :
    node.index c < key ↔ min (c * layout.nodeIndexSize + layout.nodeIndexSize) node.size - 1 <
      node.first key := by
  have hsize := (lt_lastIdx_iff node c).mp hc
  rw [hindexed c hc]
  exact hsorted.lt_first_iff key (by omega)

/-- The group of the first index. -/
theorem Sorted.index_lt_iff_group {node : NodeKeys K} (hsorted : node.Sorted)
    (hindexed : node.Indexed layout) {key : K} (hfirst : node.first key < node.size) {c : ℕ}
    (hc : c < node.lastIdx layout) :
    node.index c < key ↔ c < node.first key / layout.nodeIndexSize := by
  have hpos := layout.nodeIndexSize_pos
  have hsize := (lt_lastIdx_iff node c).mp hc
  have hdiv : c + 1 ≤ node.first key / layout.nodeIndexSize ↔
      (c + 1) * layout.nodeIndexSize ≤ node.first key := Nat.le_div_iff_mul_le hpos
  rw [Nat.succ_mul] at hdiv
  rw [hsorted.index_lt_iff hindexed key hc]
  omega

theorem findKey_eq {node : NodeKeys K} (hsorted : node.Sorted) (hindexed : node.Indexed layout)
    (key : K) : node.findKey layout key = node.first key := by
  obtain ⟨hle, hbefore, hkey⟩ := first_spec node key
  have hpos := layout.nodeIndexSize_pos
  rw [findKey]
  by_cases hfirst : node.first key < node.size
  · have hdiv := Nat.div_add_mod' (node.first key) layout.nodeIndexSize
    have hmod := Nat.mod_lt (node.first key) hpos
    have hgroup : node.first key / layout.nodeIndexSize < node.lastIdx layout :=
      (lt_lastIdx_iff node _).mpr (by omega)
    have hindex : (List.range (node.lastIdx layout)).find? (fun c => decide (key ≤ node.index c)) =
        some (node.first key / layout.nodeIndexSize) := by
      refine find?_range hgroup (decide_eq_true (not_lt.mp fun hlt => ?_)) fun c hc => ?_
      · exact Nat.lt_irrefl _ ((hsorted.index_lt_iff_group hindexed hfirst hgroup).mp hlt)
      · refine decide_eq_false (not_le_of_gt ?_)
        exact (hsorted.index_lt_iff_group hindexed hfirst (Nat.lt_trans hc hgroup)).mpr hc
    have hkeys : (List.range layout.nodeIndexSize).find? (fun c => decide (key ≤ node.keys
        (node.first key / layout.nodeIndexSize * layout.nodeIndexSize + c))) =
          some (node.first key % layout.nodeIndexSize) := by
      refine find?_range hmod (decide_eq_true ?_) fun c hc => decide_eq_false (not_le_of_gt ?_)
      · rw [hdiv]
        exact hkey hfirst
      · exact hbefore _ (by omega)
    rw [hindex]
    dsimp only
    rw [hkeys]
    exact hdiv
  · have hsame : node.first key = node.size := by omega
    have hindex : (List.range (node.lastIdx layout)).find? (fun c => decide (key ≤ node.index c)) =
        none := by
      refine List.find?_range_eq_none.mpr fun c hc => ?_
      have hsize := (lt_lastIdx_iff node c).mp hc
      have hlt := (hsorted.index_lt_iff hindexed key hc).mpr (by omega)
      rw [decide_eq_false (not_le_of_gt hlt)]
      rfl
    rw [hindex, hsame]

/-- The number of the leading indexes with a property. -/
theorem foldl_count {p : ℕ → Prop} [DecidablePred p] {n m : ℕ} (start : ℕ)
    (hp : ∀ c < n, p c ↔ c < m) :
    (List.range n).foldl (fun idx c => idx + if p c then 1 else 0) start = start + min m n := by
  induction n with
  | zero => rw [List.range_zero, List.foldl_nil, Nat.min_zero, Nat.add_zero]
  | succ n ih =>
      rw [List.range_succ, List.foldl_append, ih fun c hc => hp c (Nat.lt_succ_of_lt hc),
        List.foldl_cons, List.foldl_nil]
      by_cases hlt : n < m
      · rw [if_pos ((hp n (Nat.lt_succ_self n)).mpr hlt)]
        omega
      · rw [if_neg fun h => hlt ((hp n (Nat.lt_succ_self n)).mp h)]
        omega

theorem findKey2_eq {node : NodeKeys K} (hsorted : node.Sorted) (hindexed : node.Indexed layout)
    (key : K) : node.findKey2 layout key = node.first key := by
  obtain ⟨hle, hbefore, hkey⟩ := first_spec node key
  have hpos := layout.nodeIndexSize_pos
  rw [findKey2]
  dsimp only
  by_cases hfirst : node.first key < node.size
  · have hdiv := Nat.div_add_mod' (node.first key) layout.nodeIndexSize
    have hmod := Nat.mod_lt (node.first key) hpos
    have hgroup : node.first key / layout.nodeIndexSize < node.lastIdx layout :=
      (lt_lastIdx_iff node _).mpr (by omega)
    rw [foldl_count (p := fun c => key > node.index c) 0 fun c hc =>
        hsorted.index_lt_iff_group hindexed hfirst hc, Nat.zero_add,
      Nat.min_eq_left (Nat.le_of_lt hgroup), if_pos hgroup]
    generalize hstart : node.first key / layout.nodeIndexSize * layout.nodeIndexSize = start at hdiv
    rw [foldl_count (p := fun c => key > node.keys (start + c)) (m := node.first key - start) start
      fun c hc => ?_]
    · split_ifs <;> omega
    · rw [gt_iff_lt, hsorted.lt_first_iff key]
      · omega
      · split_ifs at hc <;> omega
  · have hsame : node.first key = node.size := by omega
    rw [foldl_count (p := fun c => key > node.index c) (m := node.lastIdx layout) 0 fun c hc => ?_,
      Nat.zero_add, Nat.min_self, if_neg (Nat.lt_irrefl _), hsame]
    have hsize := (lt_lastIdx_iff node c).mp hc
    exact iff_of_true ((hsorted.index_lt_iff hindexed key hc).mpr (by omega)) hc

theorem lowerBound_eq {node : NodeKeys K} (hsorted : node.Sorted) (key : K) {first count : ℕ}
    (hfirst : first ≤ node.first key) (hlast : node.first key ≤ first + count)
    (hsize : first + count ≤ node.size) :
    lowerBound node.keys key first count = node.first key := by
  induction hcount : count using Nat.strong_induction_on generalizing first count with
  | _ n ih =>
      subst hcount
      rw [lowerBound]
      by_cases hzero : count = 0
      · rw [dif_pos hzero]
        omega
      · have hmiddle : first + count / 2 < node.size := by omega
        have hlt := hsorted.lt_first_iff key hmiddle
        rw [dif_neg hzero]
        split_ifs with hkey
        · have hbehind := hlt.mp hkey
          exact ih _ (by omega) hbehind (by omega) (by omega) rfl
        · have hbehind := mt hlt.mpr hkey
          exact ih _ (by omega) hfirst (by omega) (by omega) rfl

theorem findKey3_eq {node : NodeKeys K} (hsorted : node.Sorted) (key : K) :
    node.findKey3 key = node.first key := by
  refine lowerBound_eq hsorted key (Nat.zero_le _) ?_ (Nat.le_of_eq (Nat.zero_add _))
  rw [Nat.zero_add]
  exact (first_spec node key).1

end Searches

section Changes

variable [LinearOrder K] [Inhabited K] {node other : NodeKeys K}

structure Good (layout : NodeLayout) (node : NodeKeys K) : Prop where
  size_le : node.size ≤ layout.nodeSize
  sorted : node.Sorted
  indexed : node.Indexed layout

theorem Good.new : Good layout ⟨0, fun _ => (default : K), fun _ => default⟩ :=
  ⟨Nat.zero_le _, fun _ _ _ hj => absurd hj (Nat.not_lt_zero _), fun _ _ => rfl⟩

theorem Good.of_reindex (hsize : node.size ≤ layout.nodeSize) (hsorted : node.Sorted) :
    (node.reindex layout).Good layout := by
  refine ⟨(reindex_size node).trans_le hsize, ?_, reindex_indexed node⟩
  rwa [Sorted, reindex_size, reindex_keys]

theorem Good.insertKey (h : node.Good layout) {idx : ℕ} {key : K} (hidx : idx ≤ node.size)
    (hspace : node.size < layout.nodeSize) (hkey : node.Between idx idx key) :
    (node.insertKey layout idx key).Good layout := by
  rw [NodeKeys.insertKey]
  refine Good.of_reindex ?_ fun i j hij hj => ?_
  · exact Nat.succ_le_of_lt hspace
  dsimp only at hj
  simp only [copyBuffer, written, Function.update_apply]
  split_ifs with hi hj' <;> first
    | omega
    | exact le_rfl
    | exact hkey.1 _ (by omega)
    | exact hkey.2 _ (by omega) (by omega)
    | exact h.sorted _ _ (by omega) (by omega)

theorem Good.removeKeys (hsize : node.size ≤ layout.nodeSize) {start stop : ℕ}
    (hstart : start ≤ stop) (hstop : stop ≤ node.size)
    (hsorted : ∀ i j, i ≤ j → j < node.size → i < start ∨ stop ≤ i → j < start ∨ stop ≤ j →
      node.keys i ≤ node.keys j) : (node.removeKeys layout start stop).Good layout := by
  rw [NodeKeys.removeKeys]
  refine Good.of_reindex ?_ fun i j hij hj => ?_
  · exact (Nat.sub_le _ _).trans hsize
  dsimp only at hj
  simp only [copyBuffer, written]
  split_ifs <;> first
    | omega
    | exact hsorted _ _ (by omega) (by omega) (by omega) (by omega)

theorem Good.splitKeysTo (h : node.Good layout) (hother : other.size = 0) {start : ℕ}
    (hstart : start ≤ node.size) :
    (node.splitKeysTo layout start other).1.Good layout ∧
      (node.splitKeysTo layout start other).2.Good layout := by
  have hsize := h.size_le
  rw [NodeKeys.splitKeysTo]
  refine ⟨Good.of_reindex ?_ fun i j hij hj => ?_, Good.of_reindex ?_ fun i j hij hj => ?_⟩
  · exact (Nat.sub_le _ _).trans hsize
  · dsimp only at hj
    simp only [written]
    rw [if_neg (by omega), if_neg (by omega)]
    exact h.sorted _ _ hij (by omega)
  · dsimp only
    omega
  · dsimp only at hj
    simp only [copyBuffer, written]
    rw [if_pos (by omega), if_pos (by omega)]
    exact h.sorted _ _ (by omega) (by omega)

theorem Good.mergeKeysFrom (h : node.Good layout) (hother : other.Good layout)
    (hspace : node.size + other.size ≤ layout.nodeSize)
    (horder : ∀ i < node.size, ∀ j < other.size, node.keys i ≤ other.keys j) :
    (node.mergeKeysFrom layout other).1.Good layout ∧
      (node.mergeKeysFrom layout other).2.Good layout := by
  rw [NodeKeys.mergeKeysFrom]
  refine ⟨Good.of_reindex ?_ fun i j hij hj => ?_, Good.of_reindex ?_ fun i j _ hj => ?_⟩
  · exact hspace
  rotate_left
  · exact Nat.zero_le _
  · exact absurd hj (Nat.not_lt_zero _)
  dsimp only at hj
  simp only [copyBuffer, written]
  split_ifs <;> first
    | omega
    | exact hother.sorted _ _ (by omega) (by omega)
    | exact horder _ (by omega) _ (by omega)
    | exact h.sorted _ _ (by omega) (by omega)

omit [Inhabited K] in
/-- The keys up to `idx` and from `stop` on. -/
theorem Sorted.setKey (h : node.Sorted) {idx stop : ℕ} {key : K}
    (hkey : node.Between idx stop key) (i j : ℕ) (hij : i ≤ j) (hj : j < node.size) :
    (i ≤ idx ∨ stop ≤ i) → (j ≤ idx ∨ stop ≤ j) → idx < stop →
      (node.setKey idx key).keys i ≤ (node.setKey idx key).keys j := by
  intro hi' hj' hstop
  simp only [NodeKeys.setKey, Function.update_apply]
  split_ifs <;> first
    | exact le_rfl
    | exact hkey.1 _ (by omega)
    | exact hkey.2 _ (by omega) (by omega)
    | exact h _ _ hij hj

theorem Good.updateKey (h : node.Good layout) {idx : ℕ} {key : K}
    (hkey : node.Between idx (idx + 1) key) :
    ((node.setKey idx key).reindex layout).Good layout :=
  Good.of_reindex h.size_le fun i j hij hj =>
    h.sorted.setKey hkey i j hij hj (by omega) (by omega) (Nat.lt_succ_self idx)

theorem Good.mergeChild (h : node.Good layout) {idx : ℕ} {key : K} (hidx : idx + 1 < node.size)
    (hkey : node.Between idx (idx + 2) key) :
    ((node.setKey idx key).removeKeys layout (idx + 1) (idx + 2)).Good layout := by
  refine Good.removeKeys ?_ (Nat.le_succ _) hidx ?_
  · exact h.size_le
  · intro i j hij hj hi' hj'
    exact h.sorted.setKey hkey i j hij hj (by omega) (by omega) (by omega)

/-- A call that takes the key of a child with keys keeps the nodes good. -/
theorem step_good {nodes nodes' : Nodes K} {op : Op K} (h : ∀ i, (nodes i).Good layout)
    (hop : op.FromKeys nodes) (hstep : step layout nodes op = some nodes') :
    ∀ i, (nodes' i).Good layout := by
  have hupdate {nodes : Nodes K} {node : ℕ} {changed : NodeKeys K}
      (hnodes : ∀ i, (nodes i).Good layout) (hchanged : changed.Good layout) (i : ℕ) :
      (Function.update nodes node changed i).Good layout := by
    rw [Function.update_apply]
    split_ifs
    · exact hchanged
    · exact hnodes i
  obtain ⟨hpromised, hstep⟩ := Option.ite_none_right_eq_some.mp hstep
  cases op with
  | insertKey node idx key =>
      obtain rfl := Option.some.inj hstep
      exact hupdate h ((h node).insertKey hpromised.1 hpromised.2.1 hpromised.2.2)
  | removeKeys node start stop =>
      obtain rfl := Option.some.inj hstep
      exact hupdate h (Good.removeKeys (h node).size_le hpromised.1 hpromised.2
        fun i j hij hj _ _ => (h node).sorted i j hij hj)
  | splitKeysTo node start other =>
      obtain rfl := Option.some.inj hstep
      obtain ⟨hleft, hright⟩ := (h node).splitKeysTo hpromised.2.1 hpromised.1
      exact hupdate (hupdate h hleft) hright
  | mergeKeysFrom node other =>
      obtain rfl := Option.some.inj hstep
      obtain ⟨hmerged, hempty⟩ := (h node).mergeKeysFrom (h other) hpromised.1 hpromised.2.2
      exact hupdate (hupdate h hmerged) hempty
  | updateKey parent idx child =>
      obtain rfl := Option.some.inj hstep
      exact hupdate h ((h parent).updateKey (hpromised.2 hop))
  | mergeChild parent idx child =>
      obtain rfl := Option.some.inj hstep
      exact hupdate h ((h parent).mergeChild hpromised.1 (hpromised.2 hop))
  | reindex node =>
      obtain rfl := Option.some.inj hstep
      exact hupdate h (Good.of_reindex (h node).size_le (h node).sorted)

/-- In every run whose parents take the keys of children with keys, the searches agree in every
node. -/
theorem searchable_run (layout : NodeLayout) (ops : List (Op K))
    (hrun : EveryStep (step layout) (fun nodes op => op.FromKeys nodes) Nodes.new ops) :
    EveryState (step layout) (fun nodes => nodes.Searchable layout) Nodes.new ops := by
  refine EveryState.of_invariant (I := fun nodes : Nodes K => ∀ i, (nodes i).Good layout)
    (fun nodes op nodes' h hop hstep => step_good h hop hstep) (fun nodes h node key => ?_)
    (fun _ => Good.new) hrun
  exact ⟨findKey_eq (h node).sorted (h node).indexed key,
    findKey2_eq (h node).sorted (h node).indexed key, findKey3_eq (h node).sorted key⟩

instance (nodes : Nodes K) (op : Op K) : Decidable (op.FromKeys nodes) :=
  match op with
  | .updateKey _ _ child => inferInstanceAs (Decidable (0 < (nodes child).size))
  | .mergeChild _ _ child => inferInstanceAs (Decidable (0 < (nodes child).size))
  | .insertKey _ _ _ | .removeKeys _ _ _ | .splitKeysTo _ _ _ | .mergeKeysFrom _ _ | .reindex _ =>
      inferInstanceAs (Decidable True)

theorem searchable_run_splits :
    EveryState (step .store) (fun nodes => nodes.Searchable .store) Nodes.new
      [.insertKey 0 0 5, .insertKey 0 1 9, .splitKeysTo 0 1 1, .insertKey 2 0 (5 : ℕ),
        .updateKey 2 0 0] :=
  searchable_run .store _ (by decide +kernel)

end Changes

/-- A parent with the greatest keys 5 and 9 of its children takes the key of the second one, which
has lost its only key. -/
def emptyChild : List (Op ℕ) :=
  [.insertKey 1 0 5, .insertKey 2 0 9, .insertKey 0 0 5, .insertKey 0 1 9, .removeKeys 2 0 1,
    .updateKey 0 1 2]

/-- The index then has 0 for the only group. -/
theorem emptyChild_not_searchable :
    ¬ ∀ ops : List (Op ℕ),
      EveryState (step .store) (fun nodes => nodes.Searchable .store) Nodes.new ops := by
  intro h
  have hfound : (emptyChild.foldlM (step .store) Nodes.new).map (fun nodes =>
      ((nodes 0).findKey .store 3, (nodes 0).first 3)) = some (2, 0) := by
    decide +kernel
  obtain ⟨nodes, hrun, hnodes⟩ := Option.map_eq_some_iff.mp hfound
  have hsame := ((h emptyChild).last hrun 0 3).1
  have hboth := Prod.mk.inj hnodes
  rw [hboth.1, hboth.2] at hsame
  exact absurd hsame (by decide)

end Memoria.NodeKeys

import Memoria.TreeSkip
import Mathlib.Algebra.BigOperators.Group.List.Basic
import Mathlib.Algebra.Order.Ring.Int
import Mathlib.Data.List.Nodup

/-!
# Moving forward

A move forward climbs from the leaf until a node has enough entries behind the path, and goes down
from there. Every node on the way down is written to the end path, so that the iterator is where the
distance takes it, or at the end.
-/

namespace Memoria.BTree

variable {I α : Type}

/-- The scan passes as many elements as keep the sum at most `k`. -/
theorem scanGT_spec (k : ℤ) (vs : List ℕ) (i : ℤ) {sum : ℤ} (hsum : sum ≤ k) :
    ∃ m ≤ vs.length, scanGT k vs i sum = (i + m, sum + (vs.take m).sum) ∧
      sum + (vs.take m).sum ≤ k ∧ (m < vs.length → k < sum + (vs.take (m + 1)).sum) := by
  induction vs generalizing i sum with
  | nil => exact ⟨0, Nat.le_refl 0, by simp [scanGT], by simpa using hsum, by simp⟩
  | cons v vs ih =>
      by_cases hstop : k < sum + v
      · exact ⟨0, Nat.zero_le _, by simp [scanGT, hstop], by simpa using hsum, by simpa using hstop⟩
      · obtain ⟨m, hm, hscan, hle, hlt⟩ := ih (i + 1) (Int.not_lt.mp hstop)
        refine ⟨m + 1, Nat.succ_le_succ hm, ?_, ?_, ?_⟩
        · rw [scanGT, if_neg hstop, hscan, List.take_succ_cons, List.sum_cons]
          rw [Prod.mk.injEq]
          constructor <;> omega
        · rw [List.take_succ_cons, List.sum_cons]
          omega
        · intro hlong
          rw [List.take_succ_cons, List.sum_cons]
          have := hlt (by simpa using hlong)
          omega

theorem sum_take_add_drop (vs : List ℕ) (m : ℕ) : (vs.take m).sum + (vs.drop m).sum = vs.sum := by
  rw [← List.sum_append, List.take_append_drop]

theorem sum_take_succ {vs : List ℕ} {m v : ℕ} (h : vs[m]? = some v) :
    (vs.take (m + 1)).sum = (vs.take m).sum + v := by
  obtain ⟨hm, rfl⟩ := List.getElem?_eq_some_iff.mp h
  rw [List.take_succ_eq_append_getElem hm, List.sum_append]
  simp

section Nodes

variable {t : SizedTree I α} {level size before after : ℕ} {node : SizedNode I α}
  {above : TreePath I α}

theorem Sized.isLeaf_zero (h : Sized t.store 0 node size) :
    node.isLeaf = true ∧ leafSize node = size := by
  obtain ⟨data, hbody, hsize⟩ := h
  simp [Node.isLeaf, leafSize, hbody, hsize]

theorem Sized.isLeaf_succ (h : Sized t.store (level + 1) node size) :
    node.isLeaf = false ∧ values node ≠ [] ∧ (values node).sum = size := by
  obtain ⟨entries, hbody, hne, hsum, -⟩ := h
  simp [Node.isLeaf, values, Node.entries, hbody, hsum, hne]

/-- A child of a node of a tree. -/
theorem SizedTree.At.descend (h : t.At (level + 1) node above before after)
    (hsized : Sized t.store (level + 1) node size) {idx : ℕ} (hidx : idx < (values node).length) :
    ∃ child csize, ctrGetNodeChild t.store node idx = some child ∧
      t.At level child (node :: above) (before + ((values node).take idx).sum)
        (after + ((values node).drop (idx + 1)).sum) ∧
      Sized t.store level child csize ∧ (values node)[idx]? = some csize := by
  obtain ⟨entries, hbody, -, -, -, hall⟩ := hsized
  have hentries : node.entries = entries := by simp [Node.entries, hbody]
  have hlt : idx < entries.length := by simpa [values, hentries] using hidx
  obtain ⟨child, hstore, hid, -, hchild⟩ := hall entries[idx] (List.getElem_mem hlt)
  have hget : node.entries[idx]? = some entries[idx] := by
    rw [hentries, List.getElem?_eq_getElem hlt]
  have hentry : node.entries[idx]? = some (entries[idx].1, child.id) := by rw [hget, hid]
  refine ⟨child, entries[idx].1, ?_, .child h hentry (hid ▸ hstore), hchild, ?_⟩
  · simp [ctrGetNodeChild, hget, hstore]
  · simp [values, hget]

theorem ctrGetChildIdx_eq [DecidableEq I] (hsized : Sized t.store (level + 1) node size)
    {idx csize : ℕ} {id : I} (hentry : node.entries[idx]? = some (csize, id)) : ctrGetChildIdx node id = some idx := by
  obtain ⟨entries, hbody, -, -, hnodup, -⟩ := hsized
  have hentries : node.entries = entries := by simp [Node.entries, hbody]
  rw [hentries] at hentry
  obtain ⟨hlt, heq⟩ := List.getElem?_eq_some_iff.mp hentry
  rw [ctrGetChildIdx, hentries, List.findIdx?_eq_some_iff_getElem]
  refine ⟨hlt, by simp [heq], ?_⟩
  intro j hj hsame
  have hids : (entries.map Prod.snd)[j]? = (entries.map Prod.snd)[idx]? := by
    simpa [heq, hlt, Nat.lt_trans hj hlt] using hsame
  have hsome : j < (entries.map Prod.snd).length := by simpa using Nat.lt_trans hj hlt
  exact absurd ((List.getElem?_inj hsome hnodup).mp hids) (Nat.ne_of_lt hj)

/-- The entries of a tree are those before a node, those of the node and those after it. -/
theorem SizedTree.At.sized (h : t.At level node above before after) :
    ∃ size, Sized t.store level node size ∧ before + size + after = t.size := by
  induction h with
  | root => exact ⟨t.size, t.sized, by omega⟩
  | @child level parent child above before after idx csize _ hentry hstore ih =>
      obtain ⟨size, hsized, htotal⟩ := ih
      obtain ⟨entries, hbody, -, hsum, -, hall⟩ := hsized
      have hentries : parent.entries = entries := by simp [Node.entries, hbody]
      rw [hentries] at hentry
      obtain ⟨child', hstore', -, -, hchild⟩ := hall _ (List.mem_of_getElem? hentry)
      obtain rfl := Option.some.inj (hstore.symm.trans hstore')
      refine ⟨csize, hchild, ?_⟩
      have hvalues : (values parent).sum = size := by rw [values, hentries, hsum]
      have hvalue : (values parent)[idx]? = some csize := by simp [values, hentries, hentry]
      have hsplit := sum_take_add_drop (values parent) (idx + 1)
      have hsucc := sum_take_succ hvalue
      omega

/-- A node of a tree is its root, or the child of a node of the tree. -/
theorem SizedTree.At.root_or_child (h : t.At level node above before after) :
    (above = [] ∧ level = t.height ∧ node = t.root ∧ before = 0 ∧ after = 0) ∨
    ∃ parent above' before' after' idx size, above = parent :: above' ∧
      t.At (level + 1) parent above' before' after' ∧ node.isRoot = false ∧
      parent.entries[idx]? = some (size, node.id) ∧ Sized t.store level node size ∧
      before = before' + ((values parent).take idx).sum ∧
      after = after' + ((values parent).drop (idx + 1)).sum := by
  cases h with
  | root => exact .inl ⟨rfl, rfl, rfl, rfl, rfl⟩
  | @child _ parent _ above' before' after' idx size hparent hentry hstore =>
      obtain ⟨_, ⟨entries, hbody, -, -, -, hall⟩, -⟩ := hparent.sized
      have hmem : (size, node.id) ∈ entries := by
        simpa [Node.entries, hbody] using List.mem_of_getElem? hentry
      obtain ⟨node', hstore', -, hroot, hsized⟩ := hall _ hmem
      obtain rfl := Option.some.inj (hstore.symm.trans hstore')
      exact .inr ⟨parent, above', before', after', idx, size, rfl, hparent, hroot, hentry, hsized,
        rfl, rfl⟩

theorem Sized.unique {n m : ℕ} (hn : Sized t.store level node n) (hm : Sized t.store level node m) :
    n = m := by
  cases level with
  | zero => exact hn.isLeaf_zero.2.symm.trans hm.isLeaf_zero.2
  | succ level => exact hn.isLeaf_succ.2.2.symm.trans hm.isLeaf_succ.2.2

end Nodes

section Leaves

variable {t : SizedTree I α} {level before after : ℕ} {node : SizedNode I α} {above : TreePath I α}

theorem index_eq_of_mem {β γ : Type} {f : β → List γ} {l : List β} (h : (l.flatMap f).Nodup)
    {i j : ℕ} {a b : β} {c : γ} (hi : l[i]? = some a) (hj : l[j]? = some b) (ha : c ∈ f a)
    (hb : c ∈ f b) : i = j := by
  have hdisjoint := List.pairwise_iff_getElem.mp (List.nodup_flatMap.mp h).2
  obtain ⟨hilt, rfl⟩ := List.getElem?_eq_some_iff.mp hi
  obtain ⟨hjlt, rfl⟩ := List.getElem?_eq_some_iff.mp hj
  rcases Nat.lt_trichotomy i j with hlt | rfl | hlt
  · exact absurd hb (hdisjoint i j hilt hjlt hlt ha)
  · rfl
  · exact absurd ha (hdisjoint j i hjlt hilt hlt hb)

theorem SizedTree.At.length (h : t.At level node above before after) :
    level + above.length = t.height := by
  induction h with
  | root => rfl
  | child _ _ _ ih =>
      rw [List.length_cons]
      omega

theorem SizedTree.At.nodup (h : t.At level node above before after) :
    (leafIds t.store level node).Nodup := by
  induction h with
  | root => exact t.nodup
  | @child level parent child above before after idx csize _ hentry hstore ih =>
      have hall := (List.nodup_flatMap.mp ih).1 _ (List.mem_of_getElem? hentry)
      simpa [hstore] using hall

/-- A leaf occurs once in a tree. -/
theorem SizedTree.At.unique {node' : SizedNode I α} {above' : TreePath I α} {before' after' : ℕ}
    {id : I} (h : t.At level node above before after) (h' : t.At level node' above' before' after')
    (hid : id ∈ leafIds t.store level node) (hid' : id ∈ leafIds t.store level node') :
    node = node' ∧ above = above' ∧ before = before' ∧ after = after' := by
  induction h generalizing node' above' before' after' with
  | root =>
      have hlength := h'.length
      rcases h'.root_or_child with ⟨rfl, -, rfl, rfl, rfl⟩ | ⟨_, _, _, _, _, _, rfl, -⟩
      · exact ⟨rfl, rfl, rfl, rfl⟩
      · rw [List.length_cons] at hlength
        omega
  | @child level parent child above before after idx csize hparent hentry hstore ih =>
      have hlength := h'.length
      have hplength := hparent.length
      cases h' with
      | root =>
          rw [List.length_nil] at hlength
          omega
      | @child _ parent' _ above' before' after' idx' csize' hparent' hentry' hstore' =>
          have hmem : id ∈ leafIds t.store (level + 1) parent :=
            List.mem_flatMap.mpr ⟨_, List.mem_of_getElem? hentry, by simpa [hstore] using hid⟩
          have hmem' : id ∈ leafIds t.store (level + 1) parent' :=
            List.mem_flatMap.mpr ⟨_, List.mem_of_getElem? hentry', by simpa [hstore'] using hid'⟩
          obtain ⟨rfl, rfl, rfl, rfl⟩ := ih hparent' hmem hmem'
          obtain rfl : idx = idx' :=
            index_eq_of_mem hparent.nodup hentry hentry' (by simpa [hstore] using hid)
              (by simpa [hstore'] using hid')
          have hsame : child.id = node'.id :=
            congrArg Prod.snd (Option.some.inj (hentry.symm.trans hentry'))
          obtain rfl := Option.some.inj (hstore.symm.trans (hsame ▸ hstore'))
          exact ⟨rfl, rfl, rfl, rfl⟩

end Leaves

def SizedTree.Lands (t : SizedTree I α) (walked : Walked I α) (pos sum target : ℤ) : Prop :=
  walked.1.pass = true ∧ walked.2.2 = ⟨sum, target⟩ ∧
    ∃ leaf above before after, walked.2.1 = leaf :: above ∧ t.At 0 leaf above before after ∧
      0 ≤ walked.1.idx ∧ walked.1.idx ≤ leafSize leaf ∧ before + walked.1.idx = pos

section Down

variable {t : SizedTree I α} {level size before after : ℕ} {node : SizedNode I α}
  {above endPath : TreePath I α} {sum target : ℤ}

/-- What the search of a branch finds, in sums of the sizes from its first child on. -/
theorem dispatchFw_branch (hsized : Sized t.store (level + 1) node size) (hle : sum ≤ target)
    {s : ℕ} (hs : s < (values node).length) :
    ∃ j, s ≤ j ∧ j ≤ (values node).length ∧
      SkipWalker.dispatchFw ⟨sum, target⟩ node s =
        (⟨j, decide ((values node).length ≤ j), false⟩,
          ⟨sum + ((values node).take j).sum - ((values node).take s).sum, target⟩) ∧
      sum + ((values node).take j).sum - ((values node).take s).sum ≤ target ∧
      (j < (values node).length →
        target < sum + ((values node).take (j + 1)).sum - ((values node).take s).sum) := by
  obtain ⟨hleaf, -⟩ := hsized.isLeaf_succ
  obtain ⟨m, hm, hscan, hbelow, habove⟩ :=
    scanGT_spec (target - sum) ((values node).drop s) s (Int.sub_nonneg_of_le hle)
  have hprefix (n : ℕ) : ((values node).take (s + n)).sum =
      ((values node).take s).sum + (((values node).drop s).take n).sum := by
    rw [List.take_add, List.sum_append]
  have hm' := hprefix m
  have hm1 := hprefix (m + 1)
  rw [List.length_drop] at hm habove
  refine ⟨s + m, Nat.le_add_right s m, by omega, ?_, by omega, ?_⟩
  · rw [SkipWalker.dispatchFw, hleaf, if_neg Bool.false_ne_true, SkipWalker.findNonLeafFw,
      if_pos (Int.ofNat_lt.mpr hs)]
    simp only [Int.toNat_natCast, hscan, hm', Nat.cast_add]
    simp only [Prod.mk.injEq, StreamOpResult.mk.injEq, SkipWalker.mk.injEq, and_true, true_and]
    refine ⟨?_, by omega⟩
    exact decide_eq_decide.mpr (by omega)
  · intro hlt
    have := habove (by omega)
    rw [← Nat.add_assoc] at hm1
    omega

/-- The search goes on in a child. -/
theorem fwChild_lands
    (ih : ∀ {node above endPath before after size sum}, t.At level node above before after →
      Sized t.store level node size → endPath.drop level = node :: above → sum ≤ target →
      ∃ walked, ctrFindFwDown t.store level endPath node ⟨sum, target⟩ = some walked ∧
        t.Lands walked (before + min (target - sum) size) (sum + min (target - sum) size) target)
    (h : t.At (level + 1) node above before after) (hsized : Sized t.store (level + 1) node size)
    (hpath : endPath.drop (level + 1) = node :: above) (hle : sum ≤ target) {j csize : ℕ}
    (hvalue : (values node)[j]? = some csize) :
    ∃ walked, ((ctrGetNodeChild t.store node j).bind fun child =>
        ctrFindFwDown t.store level (endPath.set level child) child ⟨sum, target⟩) = some walked ∧
      t.Lands walked (before + ((values node).take j).sum + min (target - sum) csize)
        (sum + min (target - sum) csize) target := by
  obtain ⟨hj, -⟩ := List.getElem?_eq_some_iff.mp hvalue
  obtain ⟨child, csize', hchild, hat, hcsized, hvalue'⟩ := h.descend hsized hj
  obtain rfl := Option.some.inj (hvalue.symm.trans hvalue')
  have hlevel : level < endPath.length := by
    by_contra hlong
    rw [List.drop_eq_nil_of_le (by omega)] at hpath
    exact absurd hpath (List.cons_ne_nil node above).symm
  have hdrop : (endPath.set level child).drop level = child :: node :: above := by
    rw [List.drop_set, if_neg (Nat.lt_irrefl level), Nat.sub_self, List.drop_eq_getElem_cons hlevel,
      List.set_cons_zero, hpath]
  obtain ⟨walked, hdown, hlands⟩ := ih hat hcsized hdrop hle
  refine ⟨walked, by rw [hchild, Option.bind_some, hdown], ?_⟩
  simpa using hlands

/-- Where no child reaches the target, the last one is taken back and the search goes on in it. -/
theorem fwLast_lands
    (ih : ∀ {node above endPath before after size sum}, t.At level node above before after →
      Sized t.store level node size → endPath.drop level = node :: above → sum ≤ target →
      ∃ walked, ctrFindFwDown t.store level endPath node ⟨sum, target⟩ = some walked ∧
        t.Lands walked (before + min (target - sum) size) (sum + min (target - sum) size) target)
    (h : t.At (level + 1) node above before after) (hsized : Sized t.store (level + 1) node size)
    (hpath : endPath.drop (level + 1) = node :: above) (hle : sum ≤ target) {j : ℕ}
    (hj : j = (values node).length) :
    ∃ walked, ((SkipWalker.fixTarget ⟨sum, target⟩ node (j - 1)).bind fun walker =>
        (ctrGetNodeChild t.store node (j - 1)).bind fun child =>
          ctrFindFwDown t.store level (endPath.set level child) child walker) = some walked ∧
      t.Lands walked (before + size) sum target := by
  obtain ⟨-, hne, hsum⟩ := hsized.isLeaf_succ
  have hpos : 0 < (values node).length := List.length_pos_of_ne_nil hne
  obtain ⟨last, hlast⟩ : ∃ last, (values node)[j - 1]? = some last :=
    ⟨_, List.getElem?_eq_getElem (show j - 1 < (values node).length by omega)⟩
  have hidx : (j : ℤ) - 1 = (j - 1 : ℕ) := by omega
  have htotal : ((values node).take (j - 1)).sum + last = size := by
    rw [← hsum, ← sum_take_succ hlast, List.take_of_length_le (by omega)]
  have hfix : SkipWalker.fixTarget ⟨sum, target⟩ node (j - 1) = some ⟨sum - last, target⟩ := by
    rw [hidx, SkipWalker.fixTarget, if_neg (by omega), Int.toNat_natCast, hlast, Option.map_some]
  obtain ⟨walked, hdown, hlands⟩ :=
    fwChild_lands ih h hsized hpath (show sum - last ≤ target by omega) hlast
  refine ⟨walked, by rw [hfix, Option.bind_some, hidx, hdown], ?_⟩
  rw [Int.min_eq_right (by omega)] at hlands
  have hend : (before + ((values node).take (j - 1)).sum + last : ℤ) = before + size := by omega
  rwa [hend, Int.sub_add_cancel] at hlands

/-- A search down moves on by what is missing, or to the end of the node. -/
theorem ctrFindFwDown_lands (h : t.At level node above before after)
    (hsized : Sized t.store level node size) (hpath : endPath.drop level = node :: above)
    (hle : sum ≤ target) :
    ∃ walked, ctrFindFwDown t.store level endPath node ⟨sum, target⟩ = some walked ∧
      t.Lands walked (before + min (target - sum) size) (sum + min (target - sum) size) target := by
  induction level generalizing node above endPath before after size sum with
  | zero =>
      obtain ⟨hleaf, hsize⟩ := hsized.isLeaf_zero
      rw [List.drop_zero] at hpath
      subst hpath
      rw [ctrFindFwDown]
      simp only [hleaf, if_true, SkipWalker.dispatchFw, SkipWalker.findLeafFw, hsize]
      split
      · refine ⟨_, rfl, rfl, ?_, node, above, before, after, rfl, h, ?_⟩
        · simp only [SkipWalker.mk.injEq, and_true]
          omega
        · simp only [hsize]
          omega
      · refine ⟨_, rfl, rfl, ?_, node, above, before, after, rfl, h, ?_⟩
        · simp only [SkipWalker.mk.injEq, and_true]
          omega
        · simp only [hsize]
          omega
  | succ level ih =>
      obtain ⟨hleaf, hne, hsum⟩ := hsized.isLeaf_succ
      obtain ⟨j, -, hj, hdispatch, hbelow, habove⟩ :=
        dispatchFw_branch hsized hle (List.length_pos_of_ne_nil hne)
      rw [List.take_zero, List.sum_nil] at hdispatch hbelow habove
      rw [ctrFindFwDown]
      simp only [Nat.cast_zero] at hdispatch
      simp only [hleaf, hdispatch]
      by_cases hrange : j < (values node).length
      · obtain ⟨csize, hcsize⟩ : ∃ csize, (values node)[j]? = some csize :=
          ⟨_, List.getElem?_eq_getElem hrange⟩
        obtain ⟨walked, hdown, hlands⟩ := fwChild_lands ih h hsized hpath hbelow hcsize
        refine ⟨walked, ?_, ?_⟩
        · simpa [hrange] using hdown
        · -- the child holds more than is missing, so that the end of the node is not reached
          have hmore := habove hrange
          have hwhole := sum_take_add_drop (values node) (j + 1)
          rw [sum_take_succ hcsize] at hmore hwhole
          rw [hsum] at hwhole
          rw [Int.min_eq_left (by omega)] at hlands ⊢
          convert hlands using 1 <;> omega
      · have hlength : j = (values node).length := by omega
        obtain ⟨walked, hdown, hlands⟩ := fwLast_lands ih h hsized hpath hbelow hlength
        refine ⟨walked, ?_, ?_⟩
        · simpa [hrange] using hdown
        · rw [hlength, List.take_length, hsum] at hlands hbelow
          rw [Int.min_eq_right (by omega)]
          convert hlands using 1
          omega

end Down

section Up

variable [DecidableEq I] {t : SizedTree I α} {level size before after : ℕ} {node : SizedNode I α}
  {above endPath : TreePath I α} {sum target : ℤ}

def climbFw (store : Store I ℕ (List α)) (above : TreePath I α) (level : ℕ)
    (endPath : TreePath I α) (node : SizedNode I α) (start : ℤ) (walker : SkipWalker) :
    Option (Walked I α) :=
  if node.isRoot then some (⟨start, false⟩, endPath, walker)
  else
    match above with
    | [] => none
    | parent :: above =>
      (ctrGetChildIdx parent node.id).bind fun parent_idx =>
        ctrFindFwUp store above (level + 1) endPath parent (parent_idx + 1) walker

theorem ctrFindFwUp_inside {store : Store I ℕ (List α)} {start j : ℤ} {walker walker' : SkipWalker}
    (hdispatch : walker.dispatchFw node start = (⟨j, false, false⟩, walker')) :
    ctrFindFwUp store above level endPath node start walker =
      if node.isLeaf then some (⟨j, true⟩, endPath, walker')
      else (ctrGetNodeChild store node j).bind fun child =>
        ctrFindFwDown store (level - 1) (endPath.set (level - 1) child) child walker' := by
  rw [ctrFindFwUp, hdispatch]
  rfl

theorem ctrFindFwUp_outside {store : Store I ℕ (List α)} {start j : ℤ}
    {walker walker' : SkipWalker} {empty : Bool} {up : Walked I α}
    (hdispatch : walker.dispatchFw node start = (⟨j, true, empty⟩, walker'))
    (hclimb : climbFw store above level endPath node start walker' = some up) :
    ctrFindFwUp store above level endPath node start walker =
      if up.1.pass then some up
      else if node.isLeaf then some (⟨j, true⟩, up.2)
      else if !empty then
        (up.2.2.fixTarget node (j - 1)).bind fun walker =>
          (ctrGetNodeChild store node (j - 1)).bind fun child =>
            ctrFindFwDown store (level - 1) (up.2.1.set (level - 1) child) child walker
      else some (⟨start, false⟩, up.2) := by
  have hunfold : ctrFindFwUp store above level endPath node start walker =
      (climbFw store above level endPath node start walker').bind fun up =>
        if up.1.pass then some up
        else if node.isLeaf then some (⟨j, true⟩, up.2)
        else if !empty then
          (up.2.2.fixTarget node (j - 1)).bind fun walker =>
            (ctrGetNodeChild store node (j - 1)).bind fun child =>
              ctrFindFwDown store (level - 1) (up.2.1.set (level - 1) child) child walker
        else some (⟨start, false⟩, up.2) := by
    rw [ctrFindFwUp, hdispatch]
    rfl
  rw [hunfold, hclimb, Option.bind_some]

def SizedTree.Climbs (t : SizedTree I α) (endPath : TreePath I α) (sum target : ℤ)
    (pos rest : ℕ) (walked : Walked I α) : Prop :=
  (walked.1.pass = false ∧ walked.2 = (endPath, ⟨sum, target⟩) ∧ rest = 0) ∨
    t.Lands walked (pos + min (target - sum) rest) (sum + min (target - sum) rest) target

theorem ctrFindFwUp_climbs
    (hclimb : ∀ start sum, sum ≤ target → ∃ walked,
      climbFw t.store above (level + 1) endPath node start ⟨sum, target⟩ = some walked ∧
        t.Climbs endPath sum target (before + size) after walked)
    (h : t.At (level + 1) node above before after) (hsized : Sized t.store (level + 1) node size)
    (hpath : endPath.drop (level + 1) = node :: above) (hle : sum ≤ target) {s : ℕ}
    (hs : s ≤ (values node).length) :
    ∃ walked, ctrFindFwUp t.store above (level + 1) endPath node s ⟨sum, target⟩ = some walked ∧
      t.Climbs endPath sum target (before + ((values node).take s).sum)
        (((values node).drop s).sum + after) walked := by
  obtain ⟨hleaf, hne, hsum⟩ := hsized.isLeaf_succ
  have hwhole := sum_take_add_drop (values node) s
  rcases Nat.lt_or_eq_of_le hs with hlt | rfl
  · obtain ⟨j, hsj, hj, hdispatch, hbelow, habove⟩ := dispatchFw_branch hsized hle hlt
    by_cases hrange : j < (values node).length
    · obtain ⟨csize, hcsize⟩ : ∃ csize, (values node)[j]? = some csize :=
        ⟨_, List.getElem?_eq_getElem hrange⟩
      rw [decide_eq_false (by omega)] at hdispatch
      obtain ⟨walked, hdown, hlands⟩ :=
        fwChild_lands ctrFindFwDown_lands h hsized hpath hbelow hcsize
      refine ⟨walked, ?_, .inr ?_⟩
      · simpa [ctrFindFwUp_inside hdispatch, hleaf] using hdown
      · have hmore := habove hrange
        have hwhole' := sum_take_add_drop (values node) (j + 1)
        rw [sum_take_succ hcsize] at hmore hwhole'
        rw [Int.min_eq_left (by omega)] at hlands ⊢
        convert hlands using 1 <;> omega
    · have hlength : j = (values node).length := by omega
      rw [decide_eq_true (by omega)] at hdispatch
      obtain ⟨up, hup, hcases⟩ := hclimb s _ hbelow
      rw [ctrFindFwUp_outside hdispatch hup]
      rcases hcases with ⟨hpass, hsame, hafter⟩ | hlands
      · obtain ⟨walked, hdown, hlands⟩ :=
          fwLast_lands ctrFindFwDown_lands h hsized hpath hbelow hlength
        refine ⟨walked, ?_, .inr ?_⟩
        · simpa [hpass, hleaf, hsame] using hdown
        · rw [hlength, List.take_length, hsum] at hlands hbelow
          rw [Int.min_eq_right (by omega)]
          convert hlands using 1 <;> omega
      · refine ⟨up, by rw [hlands.1, if_pos rfl], .inr ?_⟩
        rw [hlength, List.take_length, hsum] at hlands hbelow
        convert hlands using 1 <;> omega
  · have hdispatch : SkipWalker.dispatchFw ⟨sum, target⟩ node (values node).length =
        (⟨(values node).length, true, true⟩, ⟨sum, target⟩) := by
      simp [SkipWalker.dispatchFw, hleaf, SkipWalker.findNonLeafFw]
    obtain ⟨up, hup, hcases⟩ := hclimb (values node).length sum hle
    rw [ctrFindFwUp_outside hdispatch hup]
    rw [List.take_length, hsum, List.drop_length, List.sum_nil, Nat.zero_add]
    rcases hcases with ⟨hpass, hsame, hafter⟩ | hlands
    · exact ⟨(⟨(values node).length, false⟩, up.2), by simp [hpass, hleaf],
        .inl ⟨rfl, hsame, hafter⟩⟩
    · exact ⟨up, by rw [hlands.1, if_pos rfl], .inr hlands⟩

/-- The search above a node. -/
theorem climbFw_climbs (h : t.At level node above before after)
    (hsized : Sized t.store level node size) (hpath : endPath.drop level = node :: above)
    (start : ℤ) (hle : sum ≤ target) :
    ∃ walked, climbFw t.store above level endPath node start ⟨sum, target⟩ = some walked ∧
      t.Climbs endPath sum target (before + size) after walked := by
  induction above generalizing level node before after size start sum with
  | nil =>
      rcases h.root_or_child with ⟨-, -, rfl, rfl, rfl⟩ |
        ⟨parent, above', _, _, _, _, hnil, -⟩
      · exact ⟨_, by rw [climbFw, t.isRoot, if_pos rfl], .inl ⟨rfl, rfl, rfl⟩⟩
      · exact absurd hnil (List.cons_ne_nil parent above').symm
  | cons parent above ih =>
      rcases h.root_or_child with ⟨hnil, -⟩ |
        ⟨_, _, before', after', idx, size', hcons, hparent, hroot, hentry, hsized', rfl, rfl⟩
      · exact absurd hnil (List.cons_ne_nil parent above)
      · obtain ⟨rfl, rfl⟩ := List.cons.inj hcons
        obtain rfl := hsized.unique hsized'
        obtain ⟨psize, hpsized, -⟩ := hparent.sized
        have hpath' : endPath.drop (level + 1) = parent :: above := by
          rw [← List.drop_drop, hpath, List.drop_one, List.tail_cons]
        have hvalue : (values parent)[idx]? = some size := by simp [values, hentry]
        obtain ⟨hidx, -⟩ := List.getElem?_eq_some_iff.mp hvalue
        obtain ⟨walked, hup, hclimbs⟩ := ctrFindFwUp_climbs
          (fun start _ hle => ih hparent hpsized hpath' start hle) hparent hpsized hpath' hle
          (show idx + 1 ≤ (values parent).length from hidx)
        refine ⟨walked, ?_, ?_⟩
        · rw [climbFw, hroot, if_neg Bool.false_ne_true]
          simpa [ctrGetChildIdx_eq hpsized hentry] using hup
        · rw [sum_take_succ hvalue] at hclimbs
          convert hclimbs using 1 <;> omega

end Up

section Iterators

variable [DecidableEq I] {t : SizedTree I α}

theorem SizedTree.At.pathPrefix_eq {level before after : ℕ} {node : SizedNode I α}
    {above : TreePath I α} (h : t.At level node above before after) :
    pathPrefix (node :: above) = some before := by
  induction h with
  | root => rfl
  | @child level parent child above before after idx csize hparent hentry _ ih =>
      obtain ⟨_, hsized, -⟩ := hparent.sized
      simp [pathPrefix, ctrGetChildIdx_eq hsized hentry, ih]

theorem SizedTree.Has.pos_eq {it : Iter I α} {before : ℕ} (h : t.Has it before) :
    it.pos = some (it.localPos + before) := by
  obtain ⟨leaf, above, after, hpath, hat, -⟩ := h
  rw [Iter.pos, hpath, hat.pathPrefix_eq]
  rfl

/-- A search that ends in a leaf of the tree takes the iterator there. -/
theorem SizedTree.Has.finish {it : Iter I α} {before : ℕ} (h : t.Has it before)
    {walked : Walked I α} {pos sum target : ℤ} (hlands : t.Lands walked pos sum target) :
    ∃ before', t.Has (it.finish walked) before' ∧ (it.finish walked).pos = some pos := by
  obtain ⟨leaf, above, after, hpath, hat, -⟩ := h
  obtain ⟨-, -, leaf', above', before', after', hpath', hat', hnonneg, hle, hpos⟩ := hlands
  have hfinish : it.finish walked = ⟨leaf' :: above', walked.1.idx⟩ := by
    rw [Iter.finish, hpath, hpath']
    simp only [List.head?_cons, Option.map_some, ne_eq, Option.some.injEq, ite_not, Iter.mk.injEq,
      and_true, ite_eq_right_iff]
    intro hid
    obtain ⟨rfl, rfl, -⟩ := hat.unique hat' (List.mem_singleton.mpr hid) (List.mem_singleton.mpr rfl)
    rfl
  have hhas : t.Has (it.finish walked) before' := by
    rw [hfinish]
    exact ⟨leaf', above', after', rfl, hat', .inl hnonneg, hle⟩
  refine ⟨before', hhas, ?_⟩
  rw [hhas.pos_eq, hfinish, Int.add_comm, hpos]

/-- A search that leaves the path alone moves the iterator within its leaf. -/
theorem Iter.finish_same {it : Iter I α} {walked : Walked I α} (h : walked.2.1 = it.path) :
    it.finish walked = ⟨it.path, walked.1.idx⟩ := by
  rw [Iter.finish, h, if_neg (not_not_intro rfl)]

theorem SizedTree.Has.moved {it it' : Iter I α} {before : ℕ} {walked : Walked I α}
    {pos distance : ℤ} (h : t.Has it' before) (hit : it.finish walked = it')
    (hpos : it'.localPos + before = pos) (hsum : walked.2.2.sum = distance) :
    t.Moved (some (it.finish walked, walked.2.2.sum)) pos distance :=
  ⟨it', before, by rw [hit, hsum], h, by rw [h.pos_eq, hpos]⟩

/-- A move forward. -/
theorem iterSkipFw_moved {it : Iter I α} {before : ℕ} (h : t.Has it before) (n : ℕ) :
    t.Moved (iterSkipFw t.store it n) (min (it.localPos + before + n) t.size)
      (min (it.localPos + before + n) t.size - (it.localPos + before)) := by
  have hhas := h
  obtain ⟨leaf, above, after, hpath, hat, hfirst, hlocal⟩ := h
  obtain ⟨size, hsized, htotal⟩ := hat.sized
  obtain ⟨hleaf, hsize⟩ := hsized.isLeaf_zero
  have hskip : iterSkipFw t.store it n =
      (ctrFindFwUp t.store above 0 it.path leaf it.localPos ⟨0, n⟩).bind fun walked =>
        some (it.finish walked, walked.2.2.sum) := by
    simp only [iterSkipFw, hpath, List.head?_cons, List.tail_cons]
    rfl
  by_cases hinside : it.localPos + n < size
  · have hdispatch : SkipWalker.dispatchFw ⟨0, n⟩ leaf it.localPos =
        (⟨it.localPos + n, false, false⟩, ⟨n, n⟩) := by
      simp [SkipWalker.dispatchFw, hleaf, SkipWalker.findLeafFw, hsize, hinside]
    have hfirst' : 0 ≤ it.localPos + n ∨ it.localPos + n = -1 ∧ FirstPath it.path := by
      rcases hfirst with hnonneg | ⟨hfirst, hleft⟩
      · exact .inl (by omega)
      · rcases Nat.eq_zero_or_pos n with rfl | hpos
        · exact .inr ⟨by omega, hleft⟩
        · exact .inl (by omega)
    have hhas' : t.Has ⟨it.path, it.localPos + n⟩ before :=
      ⟨leaf, above, after, hpath, hat, hfirst', by dsimp only; omega⟩
    rw [hskip, ctrFindFwUp_inside hdispatch, hleaf, if_pos rfl, Option.bind_some]
    refine hhas'.moved (Iter.finish_same rfl) ?_ ?_ <;> dsimp only <;> omega
  · have hdispatch : SkipWalker.dispatchFw ⟨0, n⟩ leaf it.localPos =
        (⟨size, true, false⟩, ⟨size - it.localPos, n⟩) := by
      simp [SkipWalker.dispatchFw, hleaf, SkipWalker.findLeafFw, hsize, hinside]
    obtain ⟨up, hup, hcases⟩ := climbFw_climbs hat hsized (List.drop_zero.trans hpath) it.localPos
      (show (size - it.localPos : ℤ) ≤ n by omega)
    rw [hskip, ctrFindFwUp_outside hdispatch hup]
    rcases hcases with ⟨hpass, hsame, hafter⟩ | hlands
    · have hhas' : t.Has ⟨it.path, size⟩ before :=
        ⟨leaf, above, after, hpath, hat, .inl (Int.natCast_nonneg size), by dsimp only; omega⟩
      rw [hpass, hleaf, if_neg Bool.false_ne_true, if_pos rfl, hsame, Option.bind_some]
      refine hhas'.moved (Iter.finish_same rfl) ?_ ?_ <;> dsimp only <;> omega
    · obtain ⟨before', hhas', hpos⟩ := hhas.finish hlands
      rw [hlands.1, if_pos rfl, Option.bind_some]
      have hpos' := Option.some.inj (hhas'.pos_eq.symm.trans hpos)
      refine hhas'.moved rfl ?_ ?_
      · rw [hpos']
        omega
      · rw [hlands.2.1]
        dsimp only
        omega

end Iterators

end Memoria.BTree

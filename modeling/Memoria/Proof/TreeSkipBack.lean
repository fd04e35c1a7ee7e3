import Memoria.Proof.TreeSkip

/-!
# Moving backward

A move backward searches the tree to the left like a move forward searches it to the right, but it
does not write the nodes it goes through to the end path. The iterator stays in its leaf and takes the
local position of another one.
-/

namespace Memoria.BTree

variable {I α : Type}

/-- The scan passes elements as long as the sum stays below `k`. -/
theorem scanGE_spec (k : ℤ) (vs : List ℕ) (i sum : ℤ) :
    ∃ m ≤ vs.length, scanGE k vs i sum = (i - m, sum + (vs.take m).sum) ∧
      (0 < m → sum + (vs.take m).sum < k) ∧
      (m < vs.length → k ≤ sum + (vs.take (m + 1)).sum) := by
  induction vs generalizing i sum with
  | nil => exact ⟨0, Nat.le_refl 0, by simp [scanGE], by simp, by simp⟩
  | cons v vs ih =>
      by_cases hstop : k ≤ sum + v
      · exact ⟨0, Nat.zero_le _, by simp [scanGE, hstop], by simp, by simpa using hstop⟩
      · obtain ⟨m, hm, hscan, hlt, hle⟩ := ih (i - 1) (sum + v)
        refine ⟨m + 1, Nat.succ_le_succ hm, ?_, ?_, ?_⟩
        · rw [scanGE, if_neg hstop, hscan, List.take_succ_cons, List.sum_cons]
          rw [Prod.mk.injEq]
          constructor <;> omega
        · intro _
          rw [List.take_succ_cons, List.sum_cons]
          rcases Nat.eq_zero_or_pos m with rfl | hpos
          · simpa using Int.not_le.mp hstop
          · have := hlt hpos
            omega
        · intro hlong
          rw [List.take_succ_cons, List.sum_cons]
          have := hle (by simpa using hlong)
          omega

/-- The sum of the last `m` of the first `c` numbers. -/
theorem sum_take_reverse (vs : List ℕ) {c : ℕ} (hc : c ≤ vs.length) (m : ℕ) :
    ((vs.take (c - m)).sum + ((vs.take c).reverse.take m).sum) = (vs.take c).sum := by
  have hlength : (vs.take c).length = c := by rw [List.length_take, Nat.min_eq_left hc]
  rw [List.take_reverse, List.sum_reverse, hlength, ← sum_take_add_drop (vs.take c) (c - m),
    List.take_take, Nat.min_eq_left (Nat.sub_le c m)]

section Search

variable {t : SizedTree I α} {level size before after : ℕ} {node : SizedNode I α}
  {above endPath : TreePath I α} {sum target : ℤ}

/-- What the search of the first `c` children of a branch finds: the `j`-th of them, or none. -/
theorem dispatchBw_branch (hsized : Sized t.store (level + 1) node size) (hle : sum ≤ target)
    {start : Start} {c : ℕ} (hpos : 0 < c) (hc : c ≤ (values node).length)
    (hstart : start.clamp (values node).length ((values node).length - 1) = c - 1) :
    (∃ j < c, SkipWalker.dispatchBw ⟨sum, target⟩ node start = (⟨j, false, false⟩,
        ⟨sum + ((values node).take c).sum - ((values node).take (j + 1)).sum, target⟩) ∧
      sum + ((values node).take c).sum - ((values node).take (j + 1)).sum ≤ target ∧
      target ≤ sum + ((values node).take c).sum - ((values node).take j).sum) ∨
    (SkipWalker.dispatchBw ⟨sum, target⟩ node start =
        (⟨-1, true, false⟩, ⟨sum + ((values node).take c).sum, target⟩) ∧
      sum + ((values node).take c).sum < target) := by
  obtain ⟨hleaf, -⟩ := hsized.isLeaf_succ
  obtain ⟨m, hm, hscan, hlt, hge⟩ :=
    scanGE_spec (target - sum) ((values node).take c).reverse (c - 1) 0
  rw [List.length_reverse, List.length_take, Nat.min_eq_left hc] at hm hge
  have hstart' : (0 : ℤ) ≤ c - 1 := by omega
  have hc' : ((c : ℤ) - 1).toNat + 1 = c := by omega
  have hdispatch : SkipWalker.dispatchBw ⟨sum, target⟩ node start =
      (⟨c - 1 - m, decide ((c : ℤ) - 1 - m < 0), false⟩,
        ⟨sum + (((values node).take c).reverse.take m).sum, target⟩) := by
    rw [SkipWalker.dispatchBw, hleaf, if_neg Bool.false_ne_true, SkipWalker.findNonLeafBw]
    simp only [hstart, if_pos hstart', hc', hscan, Int.zero_add]
  have hprefix := sum_take_reverse (values node) hc m
  rcases Nat.lt_or_eq_of_le hm with hfound | rfl
  · left
    have hidx : (c : ℤ) - 1 - m = (c - m - 1 : ℕ) := by omega
    have hbefore := sum_take_reverse (values node) hc (m + 1)
    have hge' := hge hfound
    have hsucc : c - m - 1 + 1 = c - m := by omega
    have hpred : c - (m + 1) = c - m - 1 := by omega
    rw [hpred] at hbefore
    refine ⟨c - m - 1, by omega, ?_, ?_, by omega⟩
    · rw [hdispatch, hidx, decide_eq_false (by omega), hsucc]
      congr 2
      omega
    · rw [hsucc]
      rcases Nat.eq_zero_or_pos m with rfl | hm0
      · simpa using hle
      · have := hlt hm0
        omega
  · right
    have hlt' := hlt hpos
    rw [Nat.sub_self, List.take_zero, List.sum_nil] at hprefix
    refine ⟨?_, by omega⟩
    rw [hdispatch, decide_eq_true (by omega)]
    congr 2 <;> omega

/-- A search that has `size` entries before it leaves the path alone. It comes to the beginning if
there are not enough of them. -/
def Ends (walked : Walked I α) (endPath : TreePath I α) (sum target : ℤ) (size : ℕ) : Prop :=
  walked.1.pass = true ∧ walked.2.1 = endPath ∧ (target - sum ≤ size → 0 ≤ walked.1.idx) ∧
    (size < target - sum → walked.1.idx = -1 ∧ walked.2.2 = ⟨sum + size, target⟩)

theorem bwChild_ends
    (ih : ∀ {node above before after size sum}, t.At level node above before after →
      Sized t.store level node size → sum ≤ target →
      ∃ walked, ctrFindBwDown t.store level endPath node ⟨sum, target⟩ = some walked ∧
        Ends walked endPath sum target size)
    (h : t.At (level + 1) node above before after) (hsized : Sized t.store (level + 1) node size)
    (hle : sum ≤ target) {j csize : ℕ} (hvalue : (values node)[j]? = some csize) :
    ∃ walked, ((ctrGetNodeChild t.store node j).bind fun child =>
        ctrFindBwDown t.store level endPath child ⟨sum, target⟩) = some walked ∧
      Ends walked endPath sum target csize := by
  obtain ⟨hj, -⟩ := List.getElem?_eq_some_iff.mp hvalue
  obtain ⟨child, csize', hchild, hat, hcsized, hvalue'⟩ := h.descend hsized hj
  obtain rfl := Option.some.inj (hvalue.symm.trans hvalue')
  obtain ⟨walked, hdown, hends⟩ := ih hat hcsized hle
  exact ⟨walked, by rw [hchild, Option.bind_some, hdown], hends⟩

theorem bwFirst_ends
    (ih : ∀ {node above before after size sum}, t.At level node above before after →
      Sized t.store level node size → sum ≤ target →
      ∃ walked, ctrFindBwDown t.store level endPath node ⟨sum, target⟩ = some walked ∧
        Ends walked endPath sum target size)
    (h : t.At (level + 1) node above before after) (hsized : Sized t.store (level + 1) node size)
    (hlt : sum < target) :
    ∃ walked, ((SkipWalker.fixTarget ⟨sum, target⟩ node 0).bind fun walker =>
        (ctrGetNodeChild t.store node 0).bind fun child =>
          ctrFindBwDown t.store level endPath child walker) = some walked ∧
      walked.1 = ⟨-1, true⟩ ∧ walked.2 = (endPath, ⟨sum, target⟩) := by
  obtain ⟨-, hne, -⟩ := hsized.isLeaf_succ
  obtain ⟨first, hfirst⟩ : ∃ first, (values node)[0]? = some first :=
    ⟨_, List.getElem?_eq_getElem (List.length_pos_of_ne_nil hne)⟩
  have hfix : SkipWalker.fixTarget ⟨sum, target⟩ node 0 = some ⟨sum - first, target⟩ := by
    rw [SkipWalker.fixTarget, if_neg (Int.lt_irrefl 0), Int.toNat_zero, hfirst, Option.map_some]
  obtain ⟨walked, hdown, hpass, hpath, -, hout⟩ :=
    bwChild_ends ih h hsized (show sum - first ≤ target by omega) hfirst
  obtain ⟨hidx, hwalker⟩ := hout (by omega)
  rw [Int.sub_add_cancel] at hwalker
  refine ⟨walked, ?_, ?_, ?_⟩
  · rw [hfix, Option.bind_some]
    exact hdown
  · rw [← hpass, ← hidx]
  · rw [← hpath, ← hwalker]

theorem ctrFindBwDown_ends (h : t.At level node above before after)
    (hsized : Sized t.store level node size) (hle : sum ≤ target) :
    ∃ walked, ctrFindBwDown t.store level endPath node ⟨sum, target⟩ = some walked ∧
      Ends walked endPath sum target size := by
  induction level generalizing node above before after size sum with
  | zero =>
      obtain ⟨hleaf, hsize⟩ := hsized.isLeaf_zero
      rw [ctrFindBwDown]
      simp only [hleaf, if_true, SkipWalker.dispatchBw, SkipWalker.findLeafBw, Start.clamp, hsize,
        if_pos (Int.natCast_nonneg size)]
      split
      · refine ⟨_, rfl, rfl, rfl, ?_, ?_⟩ <;> dsimp only <;> omega
      · refine ⟨_, rfl, rfl, rfl, ?_, fun _ => ⟨rfl, rfl⟩⟩
        omega
  | succ level ih =>
      obtain ⟨hleaf, hne, hsum⟩ := hsized.isLeaf_succ
      have hstart : Start.max.clamp (values node).length ((values node).length - 1) =
          ((values node).length : ℕ) - 1 := rfl
      have hends := sum_take_add_drop (values node)
      rw [ctrFindBwDown]
      rcases dispatchBw_branch hsized hle (List.length_pos_of_ne_nil hne) (Nat.le_refl _) hstart with
        ⟨j, hj, hdispatch, hbelow, habove⟩ | ⟨hdispatch, hlt⟩
      · rw [List.take_length, hsum] at hdispatch hbelow habove
        obtain ⟨csize, hcsize⟩ : ∃ csize, (values node)[j]? = some csize :=
          ⟨_, List.getElem?_eq_getElem hj⟩
        have hsucc := sum_take_succ hcsize
        obtain ⟨walked, hdown, hpass, hpath, hin, hout⟩ := bwChild_ends ih h hsized hbelow hcsize
        refine ⟨walked, ?_, hpass, hpath, fun _ => hin (by omega), fun hshort => ?_⟩
        · simpa [hleaf, hdispatch] using hdown
        · omega
      · rw [List.take_length, hsum] at hdispatch hlt
        obtain ⟨walked, hdown, hidx, hwalker⟩ := bwFirst_ends ih h hsized hlt
        refine ⟨walked, ?_, ?_⟩
        · simpa [hleaf, hdispatch] using hdown
        · rw [Ends, hidx, hwalker]
          refine ⟨rfl, rfl, ?_, fun _ => ⟨rfl, rfl⟩⟩
          omega

variable [DecidableEq I]

def climbBw (store : Store I ℕ (List α)) (above : TreePath I α) (level : ℕ)
    (endPath : TreePath I α) (node : SizedNode I α) (start : ℤ) (walker : SkipWalker) :
    Option (Walked I α) :=
  if node.isRoot then some (⟨start, false⟩, endPath, walker)
  else
    match above with
    | [] => none
    | parent :: above =>
      (ctrGetChildIdx parent node.id).bind fun parent_idx =>
        ctrFindBwUp store above (level + 1) endPath parent (parent_idx - 1) walker

theorem ctrFindBwUp_inside {store : Store I ℕ (List α)} {start j : ℤ} {walker walker' : SkipWalker}
    (hdispatch : walker.dispatchBw node (.pos start) = (⟨j, false, false⟩, walker')) :
    ctrFindBwUp store above level endPath node start walker =
      if node.isLeaf then some (⟨j, true⟩, endPath, walker')
      else (ctrGetNodeChild store node j).bind fun child =>
        ctrFindBwDown store (level - 1) endPath child walker' := by
  rw [ctrFindBwUp, hdispatch]
  rfl

theorem ctrFindBwUp_outside {store : Store I ℕ (List α)} {start j : ℤ}
    {walker walker' : SkipWalker} {empty : Bool} {up : Walked I α}
    (hdispatch : walker.dispatchBw node (.pos start) = (⟨j, true, empty⟩, walker'))
    (hclimb : climbBw store above level endPath node start walker' = some up) :
    ctrFindBwUp store above level endPath node start walker =
      if up.1.pass then some up
      else if node.isLeaf then some (⟨j, true⟩, up.2)
      else if !empty then
        (up.2.2.fixTarget node (j + 1)).bind fun walker =>
          (ctrGetNodeChild store node (j + 1)).bind fun child =>
            ctrFindBwDown store (level - 1) up.2.1 child walker
      else some (⟨start, false⟩, up.2) := by
  have hunfold : ctrFindBwUp store above level endPath node start walker =
      (climbBw store above level endPath node start walker').bind fun up =>
        if up.1.pass then some up
        else if node.isLeaf then some (⟨j, true⟩, up.2)
        else if !empty then
          (up.2.2.fixTarget node (j + 1)).bind fun walker =>
            (ctrGetNodeChild store node (j + 1)).bind fun child =>
              ctrFindBwDown store (level - 1) up.2.1 child walker
        else some (⟨start, false⟩, up.2) := by
    rw [ctrFindBwUp, hdispatch]
    rfl
  rw [hunfold, hclimb, Option.bind_some]

def ClimbsBack (endPath : TreePath I α) (sum target : ℤ) (size : ℕ) (walked : Walked I α) : Prop :=
  (walked.1.pass = false ∧ walked.2 = (endPath, ⟨sum, target⟩) ∧ size = 0) ∨
    Ends walked endPath sum target size

omit [DecidableEq I] in
/-- A branch without a child before the path is passed over. -/
theorem dispatchBw_none (hsized : Sized t.store (level + 1) node size) (walker : SkipWalker) :
    walker.dispatchBw node (.pos (-1)) = (⟨-1, true, true⟩, walker) := by
  obtain ⟨hleaf, -⟩ := hsized.isLeaf_succ
  have hclamp : ¬ ((values node).length : ℤ) < -1 := by omega
  simp [SkipWalker.dispatchBw, hleaf, SkipWalker.findNonLeafBw, Start.clamp, hclamp]

theorem ctrFindBwUp_climbs
    (hclimb : ∀ start sum, sum ≤ target → ∃ walked,
      climbBw t.store above (level + 1) endPath node start ⟨sum, target⟩ = some walked ∧
        ClimbsBack endPath sum target before walked)
    (h : t.At (level + 1) node above before after) (hsized : Sized t.store (level + 1) node size)
    (hle : sum ≤ target) {c : ℕ} (hc : c ≤ (values node).length) :
    ∃ walked, ctrFindBwUp t.store above (level + 1) endPath node (c - 1) ⟨sum, target⟩ =
        some walked ∧
      ClimbsBack endPath sum target (((values node).take c).sum + before) walked := by
  obtain ⟨hleaf, hne, hsum⟩ := hsized.isLeaf_succ
  rcases Nat.eq_zero_or_pos c with rfl | hpos
  · have hdispatch := dispatchBw_none hsized ⟨sum, target⟩
    obtain ⟨up, hup, hcases⟩ := hclimb (-1) sum hle
    rw [Nat.cast_zero, Int.zero_sub, ctrFindBwUp_outside hdispatch hup, List.take_zero, List.sum_nil,
      Nat.zero_add]
    rcases hcases with ⟨hpass, hsame, hbefore⟩ | hends
    · exact ⟨(⟨-1, false⟩, up.2), by simp [hpass, hleaf], .inl ⟨rfl, hsame, hbefore⟩⟩
    · exact ⟨up, by rw [hends.1, if_pos rfl], .inr hends⟩
  · have hstart : (Start.pos (c - 1)).clamp (values node).length ((values node).length - 1) =
        c - 1 := if_neg (by omega)
    rcases dispatchBw_branch hsized hle hpos hc hstart with
      ⟨j, hj, hdispatch, hbelow, habove⟩ | ⟨hdispatch, hlt⟩
    · obtain ⟨csize, hcsize⟩ : ∃ csize, (values node)[j]? = some csize :=
        ⟨_, List.getElem?_eq_getElem (Nat.lt_of_lt_of_le hj hc)⟩
      have hsucc := sum_take_succ hcsize
      obtain ⟨walked, hdown, hpass, hpath, hin, -⟩ :=
        bwChild_ends ctrFindBwDown_ends h hsized hbelow hcsize
      refine ⟨walked, ?_, .inr ⟨hpass, hpath, fun _ => hin (by omega), fun hshort => ?_⟩⟩
      · simpa [ctrFindBwUp_inside hdispatch, hleaf] using hdown
      · omega
    · obtain ⟨up, hup, hcases⟩ := hclimb (c - 1) _ (Int.le_of_lt hlt)
      rw [ctrFindBwUp_outside hdispatch hup]
      rcases hcases with ⟨hpass, hsame, hbefore⟩ | ⟨hpass, hpath, hin, hout⟩
      · obtain ⟨walked, hdown, hidx, hwalker⟩ := bwFirst_ends ctrFindBwDown_ends h hsized hlt
        refine ⟨walked, ?_, .inr ?_⟩
        · simpa [hpass, hleaf, hsame] using hdown
        · rw [Ends, hidx, hwalker, hbefore]
          refine ⟨rfl, rfl, ?_, fun _ => ⟨rfl, rfl⟩⟩
          omega
      · refine ⟨up, by rw [hpass, if_pos rfl], .inr ⟨hpass, hpath, fun _ => hin (by omega), ?_⟩⟩
        intro hshort
        obtain ⟨hidx, hwalker⟩ := hout (by omega)
        refine ⟨hidx, hwalker.trans ?_⟩
        congr 1
        omega

variable (endPath) in
theorem climbBw_climbs (h : t.At level node above before after) (start : ℤ) (hle : sum ≤ target) :
    ∃ walked, climbBw t.store above level endPath node start ⟨sum, target⟩ = some walked ∧
      ClimbsBack endPath sum target before walked := by
  induction above generalizing level node before after start sum with
  | nil =>
      rcases h.root_or_child with ⟨-, -, rfl, rfl, rfl⟩ |
        ⟨parent, above', _, _, _, _, hnil, -⟩
      · exact ⟨_, by rw [climbBw, t.isRoot, if_pos rfl], .inl ⟨rfl, rfl, rfl⟩⟩
      · exact absurd hnil (List.cons_ne_nil parent above').symm
  | cons parent above ih =>
      rcases h.root_or_child with ⟨hnil, -⟩ |
        ⟨_, _, before', after', idx, size, hcons, hparent, hroot, hentry, -, rfl, rfl⟩
      · exact absurd hnil (List.cons_ne_nil parent above)
      · obtain ⟨rfl, rfl⟩ := List.cons.inj hcons
        obtain ⟨psize, hpsized, -⟩ := hparent.sized
        have hvalue : (values parent)[idx]? = some size := by simp [values, hentry]
        obtain ⟨hidx, -⟩ := List.getElem?_eq_some_iff.mp hvalue
        obtain ⟨walked, hup, hclimbs⟩ := ctrFindBwUp_climbs
          (fun start _ hle => ih hparent start hle) hparent hpsized hle (Nat.le_of_lt hidx)
        refine ⟨walked, ?_, ?_⟩
        · rw [climbBw, hroot, if_neg Bool.false_ne_true]
          simpa [ctrGetChildIdx_eq hpsized hentry] using hup
        · rwa [Nat.add_comm] at hclimbs

/-- Before the first leaf there is nothing to search. -/
theorem climbBw_first (h : t.At level node above before after) (hfirst : FirstPath (node :: above))
    (start : ℤ) (walker : SkipWalker) :
    before = 0 ∧ ∃ walked, climbBw t.store above level endPath node start walker = some walked ∧
      walked.1.pass = false ∧ walked.2 = (endPath, walker) := by
  induction above generalizing level node before after start with
  | nil =>
      rcases h.root_or_child with ⟨-, -, rfl, rfl, rfl⟩ |
        ⟨parent, above', _, _, _, _, hnil, -⟩
      · exact ⟨rfl, _, by rw [climbBw, t.isRoot, if_pos rfl], rfl, rfl⟩
      · exact absurd hnil (List.cons_ne_nil parent above').symm
  | cons parent above ih =>
      rcases h.root_or_child with ⟨hnil, -⟩ |
        ⟨_, _, before', after', idx, size, hcons, hparent, hroot, hentry, -, rfl, rfl⟩
      · exact absurd hnil (List.cons_ne_nil parent above)
      · obtain ⟨rfl, rfl⟩ := List.cons.inj hcons
        obtain ⟨psize, hpsized, -⟩ := hparent.sized
        obtain ⟨hhead, hfirst'⟩ := hfirst
        obtain ⟨⟨hsize, _⟩, hhead, rfl⟩ := Option.map_eq_some_iff.mp hhead
        rw [List.head?_eq_getElem?] at hhead
        have hidx := ctrGetChildIdx_eq hpsized hhead
        obtain rfl := Option.some.inj ((ctrGetChildIdx_eq hpsized hentry).symm.trans hidx)
        obtain ⟨rfl, up, hup, hpass, hsame⟩ := ih hparent hfirst' (-1)
        refine ⟨by simp, (⟨-1, false⟩, up.2), ?_, rfl, hsame⟩
        rw [climbBw, hroot, if_neg Bool.false_ne_true]
        simp only [hidx, Option.bind_some, Nat.cast_zero, Int.zero_sub]
        rw [ctrFindBwUp_outside (dispatchBw_none hpsized walker) hup]
        simp [hpass, hpsized.isLeaf_succ.1]

end Search

section Iterators

variable [DecidableEq I] {t : SizedTree I α} {it : Iter I α} {before : ℕ}

theorem iterSkipBw_eq {store : Store I ℕ (List α)} {leaf : SizedNode I α} {above : TreePath I α}
    (hpath : it.path = leaf :: above) (amount : ℤ) :
    iterSkipBw store it amount =
      (ctrFindBwUp store above 0 it.path leaf it.localPos ⟨0, amount⟩).bind fun walked =>
        some (it.finish walked, walked.2.2.sum) := by
  simp only [iterSkipBw, hpath, List.head?_cons, List.tail_cons]
  rfl

/-- Within the leaf a move backward is right. -/
theorem iterSkipBw_inside (h : t.Has it before) {n : ℕ} (hn : n ≤ it.localPos) :
    iterSkipBw t.store it n = some (⟨it.path, it.localPos - n⟩, (n : ℤ)) := by
  obtain ⟨leaf, above, after, hpath, hat, -, hlocal⟩ := h
  obtain ⟨size, hsized, -⟩ := hat.sized
  obtain ⟨hleaf, rfl⟩ := hsized.isLeaf_zero
  have hdispatch : SkipWalker.dispatchBw ⟨0, n⟩ leaf (.pos it.localPos) =
      (⟨it.localPos - n, false, false⟩, ⟨n, n⟩) := by
    have hnonneg : 0 ≤ it.localPos := by omega
    simp [SkipWalker.dispatchBw, hleaf, SkipWalker.findLeafBw, Start.clamp, Int.not_lt.mpr hlocal,
      hnonneg, hn]
  rw [iterSkipBw_eq hpath, ctrFindBwUp_inside hdispatch, hleaf, if_pos rfl, Option.bind_some]
  rw [Iter.finish_same rfl]

omit [DecidableEq I] in
theorem dispatchBw_leaf_out {leaf : SizedNode I α} (hleaf : leaf.isLeaf = true) {n : ℕ} {p : ℤ}
    (hp : -1 ≤ p) (hle : p ≤ leafSize leaf) (hn : p < n) :
    ∃ empty, SkipWalker.dispatchBw ⟨0, n⟩ leaf (.pos p) = (⟨-1, true, empty⟩, ⟨max p 0, n⟩) := by
  rw [SkipWalker.dispatchBw, hleaf, if_pos rfl, SkipWalker.findLeafBw]
  simp only [Start.clamp, if_neg (Int.not_lt.mpr hle)]
  split
  · rw [if_neg (by omega)]
    exact ⟨false, by congr 2; omega⟩
  · exact ⟨true, by congr 2; omega⟩

/-- In the first leaf a move backward is right, too. -/
theorem iterSkipBw_first (h : t.Has it before) {n : ℕ} (hn : it.localPos < n)
    (hfirst : FirstPath it.path) :
    before = 0 ∧ iterSkipBw t.store it n = some (⟨it.path, -1⟩, max it.localPos 0) := by
  obtain ⟨leaf, above, after, hpath, hat, hcases, hlocal⟩ := h
  obtain ⟨size, hsized, -⟩ := hat.sized
  obtain ⟨hleaf, -⟩ := hsized.isLeaf_zero
  obtain ⟨empty, hdispatch⟩ := dispatchBw_leaf_out hleaf (by omega) hlocal hn
  obtain ⟨hbefore, up, hup, hpass, hsame⟩ :=
    climbBw_first hat (hpath ▸ hfirst) it.localPos ⟨max it.localPos 0, n⟩
  refine ⟨hbefore, ?_⟩
  rw [iterSkipBw_eq hpath, ctrFindBwUp_outside hdispatch hup, hpass, hleaf,
    if_neg Bool.false_ne_true, if_pos rfl, hsame, Option.bind_some, Iter.finish_same rfl]

/-- Out of another leaf, the iterator stays on its path and takes a local position from elsewhere. -/
theorem iterSkipBw_outside (h : t.Has it before) {n : ℕ} (hn : it.localPos < n)
    (hfirst : ¬ FirstPath it.path) :
    ∃ idx distance, iterSkipBw t.store it n = some (⟨it.path, idx⟩, distance) ∧
      (n ≤ it.localPos + before → 0 ≤ idx) ∧ (it.localPos + before < n → idx = -1) := by
  obtain ⟨leaf, above, after, hpath, hat, hcases, hlocal⟩ := h
  obtain ⟨size, hsized, -⟩ := hat.sized
  obtain ⟨hleaf, -⟩ := hsized.isLeaf_zero
  have hnonneg : 0 ≤ it.localPos := hcases.resolve_right fun hleft => hfirst hleft.2
  obtain ⟨empty, hdispatch⟩ := dispatchBw_leaf_out hleaf (by omega) hlocal hn
  rw [Int.max_eq_left hnonneg] at hdispatch
  obtain ⟨up, hup, hclimbs⟩ :=
    climbBw_climbs it.path hat it.localPos (Int.le_of_lt hn)
  rw [iterSkipBw_eq hpath, ctrFindBwUp_outside hdispatch hup]
  rcases hclimbs with ⟨hpass, hsame, rfl⟩ | ⟨hpass, hsame, hin, hout⟩
  · rw [hpass, hleaf, hsame, if_neg Bool.false_ne_true, if_pos rfl, Option.bind_some]
    rw [Iter.finish_same rfl]
    exact ⟨-1, it.localPos, rfl, by omega, fun _ => rfl⟩
  · rw [hpass, if_pos rfl, Option.bind_some, Iter.finish_same hsame]
    exact ⟨up.1.idx, up.2.2.sum, rfl, fun hle => hin (by omega), fun hlt => (hout (by omega)).1⟩

/-- A move backward is right within the leaf and in the first leaf, and nowhere else. The distance it
returns counts the entries passed, so that it is the same before the first entry and at it. -/
theorem iterSkipBw_moved_iff (h : t.Has it before) (n : ℕ) :
    t.Moved (iterSkipBw t.store it n) (max (it.localPos + before - n) (-1))
        (min n (max (it.localPos + before) 0)) ↔
      n ≤ it.localPos ∨ FirstPath it.path := by
  have hhas := h
  obtain ⟨leaf, above, after, hpath, hat, hcases, hlocal⟩ := h
  by_cases hn : n ≤ it.localPos
  · have hhas' : t.Has ⟨it.path, it.localPos - n⟩ before :=
      ⟨leaf, above, after, hpath, hat, .inl (Int.sub_nonneg_of_le hn), by dsimp only; omega⟩
    refine iff_of_true ⟨_, before, ?_, hhas', ?_⟩ (.inl hn)
    · rw [iterSkipBw_inside hhas hn]
      congr 2
      omega
    · rw [hhas'.pos_eq]
      congr 1
      dsimp only
      omega
  · rw [Int.not_le] at hn
    by_cases hfirst : FirstPath it.path
    · obtain ⟨rfl, hskip⟩ := iterSkipBw_first hhas hn hfirst
      have hhas' : t.Has ⟨it.path, -1⟩ 0 :=
        ⟨leaf, above, after, hpath, hat, .inr ⟨rfl, hfirst⟩, by dsimp only; omega⟩
      refine iff_of_true ⟨_, 0, ?_, hhas', ?_⟩ (.inr hfirst)
      · rw [hskip]
        congr 2
        omega
      · rw [hhas'.pos_eq]
        congr 1
        dsimp only
        omega
    · refine iff_of_false ?_ (not_or_intro (Int.not_le.mpr hn) hfirst)
      rintro ⟨it', before', hmoved, hhas', hpos⟩
      obtain ⟨idx, distance, hskip, hin, hout⟩ := iterSkipBw_outside hhas hn hfirst
      obtain ⟨rfl, -⟩ := Prod.mk.inj (Option.some.inj (hskip.symm.trans hmoved))
      have hpos' : idx + before = max (it.localPos + before - n) (-1) := by
        rw [Iter.pos, hpath, hat.pathPrefix_eq] at hpos
        exact Option.some.inj hpos
      have hnonneg : 0 ≤ idx := by
        obtain ⟨_, _, _, _, _, hidx, _⟩ := hhas'
        exact hidx.resolve_right fun hleft => hfirst hleft.2
      have hlocal' : 0 ≤ it.localPos := hcases.resolve_right fun hleft => hfirst hleft.2
      by_cases hmany : it.localPos + before < n
      · have := hout hmany
        omega
      · omega

/-- Moves and positions agree: always forward, and backward where no other leaf is entered. A move
backward then takes back a move forward. -/
theorem skip_agrees_iff (h : t.Has it before) (n : ℕ) {p : ℤ} (hp : it.pos = some p) :
    t.Moved (iterSkipFw t.store it n) (min (p + n) t.size) (min (p + n) t.size - p) ∧
    (t.Moved (iterSkipBw t.store it n) (max (p - n) (-1)) (min n (max p 0)) ↔
      n ≤ it.localPos ∨ FirstPath it.path) ∧
    (p + n < t.size → ∃ it' distance, iterSkipFw t.store it n = some (it', distance) ∧
      (t.Moved (iterSkipBw t.store it' n) p (min n (max (p + n) 0)) ↔
        n ≤ it'.localPos ∨ FirstPath it'.path)) := by
  obtain rfl := Option.some.inj (h.pos_eq.symm.trans hp)
  refine ⟨iterSkipFw_moved h n, iterSkipBw_moved_iff h n, fun hend => ?_⟩
  obtain ⟨it', before', hmoved, hhas', hpos⟩ := iterSkipFw_moved h n
  refine ⟨it', _, hmoved, ?_⟩
  have hback := iterSkipBw_moved_iff hhas' n
  have hpos' := Option.some.inj (hhas'.pos_eq.symm.trans hpos)
  have hleft : -1 ≤ it.localPos := by
    obtain ⟨_, _, _, _, _, hcases, _⟩ := h
    omega
  rw [Int.min_eq_left (Int.le_of_lt hend)] at hpos'
  rwa [hpos', Int.add_sub_cancel, Int.max_eq_left (by omega)] at hback

end Iterators

def twoLeaves : Store ℕ ℕ (List ℕ)
  | 1 => some ⟨1, false, .leaf [10, 11]⟩
  | 2 => some ⟨2, false, .leaf [12, 13]⟩
  | _ => none

def twoLeavesTree : SizedTree ℕ ℕ where
  store := twoLeaves
  root := ⟨0, true, .branch [(2, 1), (2, 2)]⟩
  height := 1
  size := 4
  isRoot := rfl
  sized := by
    refine ⟨_, rfl, List.cons_ne_nil _ _, rfl, by decide, ?_⟩
    simp [Sized, twoLeaves]
  nodup := by decide

def secondLeaf : Iter ℕ ℕ :=
  ⟨[⟨2, false, .leaf [12, 13]⟩, ⟨0, true, .branch [(2, 1), (2, 2)]⟩], 0⟩

theorem secondLeaf_has : twoLeavesTree.Has secondLeaf 2 := by
  have hentry : twoLeavesTree.root.entries[1]? = some (2, 2) := rfl
  have hat : twoLeavesTree.At 0 ⟨2, false, .leaf [12, 13]⟩ [twoLeavesTree.root]
      (0 + ((values twoLeavesTree.root).take 1).sum)
      (0 + ((values twoLeavesTree.root).drop (1 + 1)).sum) := .child .root hentry rfl
  exact ⟨_, _, 0, rfl, hat, .inl (Int.le_refl 0), by decide⟩

theorem skip_agrees_secondLeaf :
    twoLeavesTree.Has secondLeaf 2 ∧ secondLeaf.pos = some 2 ∧
    twoLeavesTree.Moved (iterSkipFw twoLeaves secondLeaf 1) 3 1 := by
  have hpos : secondLeaf.pos = some 2 := by decide
  exact ⟨secondLeaf_has, hpos, (skip_agrees_iff secondLeaf_has 1 hpos).1⟩

/-- One entry back from the first entry of the second leaf is the last entry of the first leaf, at
position 1; the iterator is at position 3 afterwards. -/
theorem skip_bw_misses :
    twoLeavesTree.Has secondLeaf 2 ∧ secondLeaf.pos = some 2 ∧
    (iterSkipBw twoLeaves secondLeaf 1).bind (fun moved => moved.1.pos) = some 3 ∧
    ¬ twoLeavesTree.Moved (iterSkipBw twoLeaves secondLeaf 1) 1 1 := by
  have hmoved : (iterSkipBw twoLeaves secondLeaf 1).bind (fun moved => moved.1.pos) = some 3 := by
    decide
  refine ⟨secondLeaf_has, by decide, hmoved, ?_⟩
  rintro ⟨it, before, hskip, -, hpos⟩
  rw [hskip, Option.bind_some, hpos] at hmoved
  exact absurd hmoved (by decide)

end Memoria.BTree

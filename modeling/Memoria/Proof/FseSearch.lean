import Memoria.FseSearch
import Memoria.Proof.FseTree
import Memoria.Proof.IndexLevels

/-!
# Searches agree with the linear scan

An entry of an index that is up to date is the sum of a block of values, so that a walk over it is a
search over blocks. What it passes at once the scan passes value by value, and both go on with the
same values.
-/

namespace Memoria.FseTree

open Lib

variable {α : Type} {blocks : ℕ}

section Levels

variable {params : Params α}

theorem levelSizes_of_gt {size : ℕ} (h : params.valuesPerBranch < size) :
    LevelsCover params.branchingFactor (levelSizes params size) ∧
      lowestSize (levelSizes params size) = divUp size params.valuesPerBranch := by
  have hpos : 0 < divUp size params.valuesPerBranch := by
    by_contra hzero
    have hle := (divUp_le_iff params.values_pos).mp (Nat.le_of_not_lt hzero)
    omega
  rw [levelSizes, if_neg (Nat.not_le.mpr h)]
  exact VleTree.levelsCover params.two_le hpos

/-- The blocks of the lowest level hold all the values. -/
theorem le_lowestSize {size : ℕ} (h : params.valuesPerBranch < size) :
    size ≤ lowestSize (levelSizes params size) * params.valuesPerBranch := by
  rw [(levelSizes_of_gt h).2, Nat.mul_comm]
  exact (divUp_le_iff params.values_pos).mp (Nat.le_refl _)

/-- There is a level under the root. -/
theorem one_lt_length_levelSizes {size : ℕ} (h : params.valuesPerBranch < size) :
    1 < (levelSizes params size).length := by
  have hpos : 0 < divUp size params.valuesPerBranch := by
    have hle := le_lowestSize h
    rw [(levelSizes_of_gt h).2] at hle
    by_contra hzero
    rw [Nat.eq_zero_of_not_pos hzero] at hle
    omega
  have hupper := VleTree.upperSizes_ne_nil params.branchingFactor
    (divUp size params.valuesPerBranch) hpos
  rw [levelSizes, if_neg (Nat.not_le.mpr h)]
  simp only [List.length_reverse, List.length_cons]
  exact Nat.succ_lt_succ (List.length_pos_iff.mpr hupper)

/-- Every level has an entry. -/
theorem levelSizes_eq_nil_of_sum {size : ℕ} (h : FseTree.indexSize params size = 0) :
    levelSizes params size = [] := by
  rw [levelSizes, if_pos]
  by_contra hlarge
  have hcover := (levelSizes_of_gt (Nat.lt_of_not_le hlarge)).1
  have hlt : (levelSizes params size).length - 1 < (levelSizes params size).length :=
    Nat.sub_one_lt_of_lt hcover.length_pos
  have hlowest : lowestSize (levelSizes params size) = 0 := by
    rw [lowestSize, List.getD_eq_getElem _ _ hlt]
    exact List.sum_eq_zero_iff.mp h _ (List.getElem_mem hlt)
  have hle := le_lowestSize (Nat.lt_of_not_le hlarge)
  rw [hlowest] at hle
  omega

variable [AddCommMonoid α] {sizes : List ℕ} {values index : List α}

theorem indexEntry_eq (sizes : List ℕ) (index : List α) {level c : ℕ} (hc : c < sizes.getD level 0) :
    indexEntry sizes index level c = (levelEntries sizes index level).getD c 0 := by
  rw [indexEntry, levelEntries, List.getD_eq_getElem?_getD, List.getD_eq_getElem?_getD,
    List.getElem?_take_of_lt hc, List.getElem?_drop]

theorem blockSums_getElem? (width : ℕ) (entries : List α) {count c : ℕ} {sum : α}
    (h : (blockSums width entries count)[c]? = some sum) :
    sum = rangeSum entries (c * width) ((c + 1) * width) := by
  rw [blockSums, List.getElem?_map, Option.map_eq_some_iff] at h
  obtain ⟨i, hi, rfl⟩ := h
  obtain ⟨hc, hi⟩ := List.getElem?_eq_some_iff.mp hi
  rw [List.getElem_range] at hi
  rw [rangeSum, ← hi, Nat.add_one_mul, Nat.add_sub_cancel_left]

/-- The entries of a level are the sums of the values of their blocks. -/
theorem IndexOf.levelEntries_eq (h : IndexOf params sizes values index)
    (hcover : LevelsCover params.branchingFactor sizes)
    (hvalues : values.length ≤ lowestSize sizes * params.valuesPerBranch) {level : ℕ}
    (hlevel : level < sizes.length) :
    (levelEntries sizes index level).length = sizes.getD level 0 ∧
      ∀ c sum, (levelEntries sizes index level)[c]? = some sum →
        sum = rangeSum values
          (c * (levelWidth params.branchingFactor sizes level * params.valuesPerBranch))
          ((c + 1) * (levelWidth params.branchingFactor sizes level * params.valuesPerBranch)) := by
  obtain ⟨n, hn⟩ := Nat.exists_eq_add_of_lt hlevel
  induction n generalizing level with
  | zero =>
      have hlast : level + 1 = sizes.length := hn.symm
      obtain rfl : level = sizes.length - 1 := by omega
      rw [h _ hlevel, if_pos hlast]
      refine ⟨length_blockSums _ _ _, fun c sum hsum => ?_⟩
      rw [levelWidth_lowest, Nat.one_mul]
      exact blockSums_getElem? _ _ hsum
  | succ n ih =>
      have hnext : level + 1 < sizes.length := by omega
      obtain ⟨hlength, hbelow⟩ := ih hnext (by omega)
      rw [h level hlevel, if_neg (by omega)]
      refine ⟨length_blockSums _ _ _, fun c sum hsum => ?_⟩
      rw [blockSums_getElem? _ _ hsum, rangeSum_blocks values hbelow _
        (Nat.mul_le_mul_right _ (Nat.le_succ c)), levelWidth_succ hnext]
      · simp only [Nat.mul_assoc]
      · have hbound : lowestSize sizes ≤
            sizes.getD (level + 1) 0 * levelWidth params.branchingFactor sizes (level + 1) := by
          have hall := hcover.bound_eq_of_le hnext (Nat.le_refl _)
          rw [levelBound] at hall
          omega
        rw [hlength, ← Nat.mul_assoc]
        exact hvalues.trans (Nat.mul_le_mul_right _ hbound)

theorem IndexOf.indexEntry_eq (h : IndexOf params sizes values index)
    (hcover : LevelsCover params.branchingFactor sizes)
    (hvalues : values.length ≤ lowestSize sizes * params.valuesPerBranch) {level c : ℕ}
    (hlevel : level < sizes.length) (hc : c < sizes.getD level 0) :
    indexEntry sizes index level c = rangeSum values
      (c * levelWidth params.branchingFactor sizes level * params.valuesPerBranch)
      ((c + 1) * levelWidth params.branchingFactor sizes level * params.valuesPerBranch) := by
  obtain ⟨hlength, hentries⟩ := h.levelEntries_eq hcover hvalues hlevel
  rw [← hlength] at hc
  rw [FseTree.indexEntry_eq sizes index (hlength ▸ hc), List.getD_eq_getElem _ _ hc,
    hentries c _ (List.getElem?_eq_getElem hc), Nat.mul_assoc, Nat.mul_assoc]

theorem IndexOf.sumEntries_eq (h : IndexOf params sizes values index)
    (hcover : LevelsCover params.branchingFactor sizes)
    (hvalues : values.length ≤ lowestSize sizes * params.valuesPerBranch) {level : ℕ}
    (hlevel : level < sizes.length) {start stop : ℕ} (hle : start ≤ stop)
    (hstop : stop * levelWidth params.branchingFactor sizes level ≤ lowestSize sizes) :
    sumEntries sizes index level start stop = rangeSum values
      (start * levelWidth params.branchingFactor sizes level * params.valuesPerBranch)
      (stop * levelWidth params.branchingFactor sizes level * params.valuesPerBranch) := by
  obtain ⟨n, rfl⟩ := Nat.exists_eq_add_of_le hle
  rw [sumEntries, Nat.add_sub_cancel_left]
  induction n with
  | zero => rw [Nat.add_zero, rangeSum_self, List.range'_zero, List.map_nil, List.sum_nil]
  | succ n ih =>
      rw [← Nat.add_assoc] at hstop ⊢
      have hwidth : (start + n) * levelWidth params.branchingFactor sizes level ≤
          (start + n + 1) * levelWidth params.branchingFactor sizes level :=
        Nat.mul_le_mul_right _ (Nat.le_succ _)
      have hentry := h.indexEntry_eq hcover hvalues hlevel (hcover.lt_of_bound hlevel hstop)
      rw [List.range'_concat, List.map_append, List.sum_append,
        ih (Nat.le_add_right _ _) (hwidth.trans hstop), Nat.one_mul, List.map_singleton,
        List.sum_singleton, hentry]
      exact rangeSum_add values
        (Nat.mul_le_mul_right _ (Nat.mul_le_mul_right _ (Nat.le_add_right _ _)))
        (Nat.mul_le_mul_right _ hwidth)

/-- The entries from `start` up to `stop` on a level, added up branch by branch. -/
theorem IndexOf.sumIndex_eq (h : IndexOf params sizes values index)
    (hcover : LevelsCover params.branchingFactor sizes)
    (hvalues : values.length ≤ lowestSize sizes * params.valuesPerBranch) {level : ℕ}
    (hlevel : level < sizes.length) {start stop : ℕ} (hle : start ≤ stop)
    (hstop : stop * levelWidth params.branchingFactor sizes level ≤ lowestSize sizes) (sum : α) :
    sumIndex params sizes index level start stop sum = some (sum + rangeSum values
      (start * levelWidth params.branchingFactor sizes level * params.valuesPerBranch)
      (stop * levelWidth params.branchingFactor sizes level * params.valuesPerBranch)) := by
  induction level generalizing start stop sum with
  | zero =>
      have hroot : stop ≤ (start / params.branchingFactor + 1) * params.branchingFactor := by
        have hsize : stop ≤ params.branchingFactor := by
          rcases Nat.eq_zero_or_pos stop with rfl | hpos
          · exact Nat.zero_le _
          · have hlt := hcover.lt_of_bound hlevel (a := stop - 1)
              (by rwa [Nat.sub_add_cancel hpos])
            have hroot := hcover.root_le_branching
            omega
        exact hsize.trans (Nat.le_mul_of_pos_left _ (Nat.succ_pos _))
      rw [sumIndex, if_pos (Or.inl hroot), h.sumEntries_eq hcover hvalues hlevel hle hstop]
  | succ upper ih =>
      have hbpos := hcover.branching_pos
      rw [sumIndex]
      split_ifs with hbranch
      · rw [h.sumEntries_eq hcover hvalues hlevel hle hstop]
      · rw [not_or, Nat.not_le] at hbranch
        obtain ⟨b, hb⟩ : ∃ b, b = start / params.branchingFactor + 1 := ⟨_, rfl⟩
        obtain ⟨e, he⟩ : ∃ e, e = stop / params.branchingFactor := ⟨_, rfl⟩
        have hfirst : start ≤ b * params.branchingFactor :=
          Nat.le_of_lt ((Nat.div_lt_iff_lt_mul hbpos).mp (hb ▸ Nat.lt_succ_self _))
        have hlast : e * params.branchingFactor ≤ stop := he ▸ Nat.div_mul_le_self _ _
        rw [← hb, ← he] at hbranch ⊢
        have hparts : b ≤ e := by
          rw [he]
          exact (Nat.le_div_iff_mul_le hbpos).mpr (Nat.le_of_lt hbranch.1)
        have hmid : b * params.branchingFactor ≤ e * params.branchingFactor :=
          Nat.mul_le_mul_right _ hparts
        have hwidth : levelWidth params.branchingFactor sizes upper =
            params.branchingFactor * levelWidth params.branchingFactor sizes (upper + 1) := by
          rw [levelWidth_succ hlevel]
        have hbound {c : ℕ} (hc : c ≤ stop) :
            c * levelWidth params.branchingFactor sizes (upper + 1) ≤ lowestSize sizes :=
          (Nat.mul_le_mul_right _ hc).trans hstop
        have hupper := ih (Nat.lt_of_succ_lt hlevel) hparts
          (by rw [hwidth, ← Nat.mul_assoc]; exact hbound hlast)
          (sum + sumEntries sizes index (upper + 1) start (b * params.branchingFactor))
        have hscale {c d : ℕ} (hcd : c ≤ d) :
            c * levelWidth params.branchingFactor sizes (upper + 1) * params.valuesPerBranch ≤
              d * levelWidth params.branchingFactor sizes (upper + 1) * params.valuesPerBranch :=
          Nat.mul_le_mul_right _ (Nat.mul_le_mul_right _ hcd)
        simp only [Nat.mul_div_cancel _ hbpos, hupper, Option.bind_eq_bind, Option.bind_some]
        rw [h.sumEntries_eq hcover hvalues hlevel hfirst (hbound (hmid.trans hlast)),
          h.sumEntries_eq hcover hvalues hlevel hlast hstop, hwidth, ← Nat.mul_assoc,
          ← Nat.mul_assoc, add_assoc sum, rangeSum_add values (hscale hfirst) (hscale hmid),
          add_assoc, rangeSum_add values (hscale (hfirst.trans hmid)) (hscale hlast)]

end Levels

/-- A list from `start` on, cut at `p`. -/
theorem drop_eq_take_append {values : List α} {start p : ℕ} (hp : start ≤ p) :
    values.drop start = (values.drop start).take (p - start) ++ values.drop p := by
  conv_lhs => rw [← List.take_append_drop (p - start) (values.drop start)]
  rw [List.drop_drop, Nat.add_sub_cancel' hp]

/-- A list back from `n`, cut at `p`. -/
theorem reverse_take_eq_append {values : List α} {p n : ℕ} (hp : p ≤ n) :
    (values.take n).reverse =
      ((values.drop p).take (n - p)).reverse ++ (values.take p).reverse := by
  rw [← List.reverse_append, ← List.drop_take, ← Nat.min_eq_left hp, ← List.take_take,
    Nat.min_eq_left hp, List.take_append_drop]

section Loops

variable [AddCommMonoid α] [LinearOrder α] [IsOrderedAddMonoid α] {hits : α → Bool}
variable {values : List α} (hmono : Monotone hits) (hvalues : ∀ v ∈ values, 0 ≤ v) (rest : List α)

include hmono hvalues

/-- The loop goes on where the values in front of it are missed. -/
theorem findFrom_eq_scanFw {start p : ℕ} (hstart : start ≤ values.length) (hp : start ≤ p)
    (hmiss : start < p → hits (rangeSum values start p) = false) :
    findFrom hits (values ++ rest) values.length p (rangeSum values start p) =
      scanFw hits values start := by
  have hpart : ∀ v ∈ (values.drop start).take (p - start), 0 ≤ v :=
    fun v hv => hvalues v (List.mem_of_mem_drop (List.mem_of_mem_take hv))
  have hpass : (values.drop start).take (p - start) ≠ [] →
      hits (0 + ((values.drop start).take (p - start)).sum) = false := by
    intro hne
    rw [zero_add]
    apply hmiss
    by_contra hnot
    rw [Nat.sub_eq_zero_of_le (Nat.le_of_not_lt hnot)] at hne
    exact hne rfl
  have hscan := sumScan_append hmono hpart 0 hpass (values.drop p)
  rw [← drop_eq_take_append hp, List.length_take, List.length_drop, zero_add, ← rangeSum] at hscan
  have hle := sumScan_le hits (rangeSum values start p) (values.drop p)
  rw [List.length_drop] at hle
  rw [findFrom, scanFw, hscan, List.take_left]
  congr 1
  split_ifs with hlt
  · omega
  · omega

/-- The loop goes back where the values behind it are missed. -/
theorem findBackFrom_eq_scanBw {n p : ℕ} (hn : n ≤ values.length) (hp : p ≤ n)
    (hmiss : p < n → hits (rangeSum values p n) = false) :
    findBackFrom hits (values ++ rest) ((p : ℤ) - 1) (rangeSum values p n) =
      scanBw hits values ((n : ℤ) - 1) := by
  have hpart : ∀ v ∈ ((values.drop p).take (n - p)).reverse, 0 ≤ v :=
    fun v hv => hvalues v (List.mem_of_mem_drop (List.mem_of_mem_take (List.mem_reverse.mp hv)))
  have hpass : ((values.drop p).take (n - p)).reverse ≠ [] →
      hits (0 + ((values.drop p).take (n - p)).reverse.sum) = false := by
    intro hne
    rw [zero_add, List.sum_reverse]
    apply hmiss
    by_contra hnot
    rw [Nat.sub_eq_zero_of_le (Nat.le_of_not_lt hnot)] at hne
    exact hne rfl
  have hscan := sumScan_append hmono hpart 0 hpass (values.take p).reverse
  rw [← reverse_take_eq_append hp, List.length_reverse, List.length_take, List.length_drop, List.sum_reverse, zero_add,
    ← rangeSum] at hscan
  have hle := sumScan_le hits (rangeSum values p n) (values.take p).reverse
  rw [List.length_reverse, List.length_take] at hle
  rw [findBackFrom, scanBw, Int.sub_add_cancel, Int.sub_add_cancel, Int.toNat_natCast,
    Int.toNat_natCast, hscan, List.take_append_of_le_length (hp.trans hn)]
  congr 1
  dsimp only
  split_ifs with hlt
  · omega
  · omega

end Loops

section Index

variable [AddCommMonoid α] [LinearOrder α] [IsOrderedAddMonoid α] {hits : α → Bool}
variable {params : Params α} {sizes : List ℕ} {values index : List α}

def hitBehind (hits : α → Bool) (values : List α) (width start block : ℕ) : Bool :=
  decide (start < block * width) && hits (rangeSum values start (block * width))

variable (hindex : IndexOf params sizes values index)
variable (hcover : LevelsCover params.branchingFactor sizes)
variable (hlength : values.length ≤ lowestSize sizes * params.valuesPerBranch)

include hindex hcover hlength

omit [LinearOrder α] [IsOrderedAddMonoid α] in
theorem takesFw {start origin : ℕ} (horigin : start ≤ origin * params.valuesPerBranch) :
    TakesFw (fun sum entry => hits (sum + entry)) (· + ·) params.branchingFactor sizes
      (indexEntry sizes index) (fun b => rangeSum values start (b * params.valuesPerBranch))
      (hitBehind hits values params.valuesPerBranch start) origin := by
  intro level hlevel c hc hfrom
  have hwidth : 0 < levelWidth params.branchingFactor sizes level :=
    Nat.pow_pos hcover.branching_pos
  have hstart : start ≤ c * levelWidth params.branchingFactor sizes level * params.valuesPerBranch :=
    horigin.trans (Nat.mul_le_mul_right _ hfrom)
  have hnext : c * levelWidth params.branchingFactor sizes level * params.valuesPerBranch ≤
      (c + 1) * levelWidth params.branchingFactor sizes level * params.valuesPerBranch :=
    Nat.mul_le_mul_right _ (Nat.mul_le_mul_right _ (Nat.le_succ c))
  have hbound := (hcover.lt_iff level hlevel c).mp hc
  have hsum : rangeSum values start
        (levelBound params.branchingFactor sizes level c * params.valuesPerBranch) +
          indexEntry sizes index level c =
      rangeSum values start
        (levelBound params.branchingFactor sizes level (c + 1) * params.valuesPerBranch) := by
    rw [hcover.bound_of_lt hlevel hc, hindex.indexEntry_eq hcover hlength hlevel hc,
      rangeSum_add values hstart hnext]
    apply rangeSum_congr
    rw [levelBound]
    rcases Nat.le_total ((c + 1) * levelWidth params.branchingFactor sizes level)
      (lowestSize sizes) with hle | hle
    · rw [Nat.min_eq_left hle]
    · rw [Nat.min_eq_right hle, Nat.min_eq_right hlength,
        Nat.min_eq_right (hlength.trans (Nat.mul_le_mul_right _ hle))]
  have hbehind : start <
      levelBound params.branchingFactor sizes level (c + 1) * params.valuesPerBranch := by
    apply Nat.lt_of_le_of_lt hstart
    apply Nat.mul_lt_mul_of_pos_right _ params.values_pos
    rw [levelBound, Nat.add_one_mul]
    omega
  rw [hitBehind, decide_eq_true hbehind, Bool.true_and]
  exact ⟨congrArg hits hsum, hsum⟩

omit [LinearOrder α] [IsOrderedAddMonoid α] in
theorem takesBw {stop origin : ℕ} (horigin : origin * params.valuesPerBranch ≤ stop)
    (hle : origin ≤ lowestSize sizes) :
    TakesBw (fun sum entry => hits (sum + entry)) (· + ·) params.branchingFactor sizes
      (indexEntry sizes index) (fun b => rangeSum values (b * params.valuesPerBranch) stop)
      (fun b => hits (rangeSum values (b * params.valuesPerBranch) stop)) origin := by
  intro level hlevel c hc
  have hnext : c * levelWidth params.branchingFactor sizes level * params.valuesPerBranch ≤
      (c + 1) * levelWidth params.branchingFactor sizes level * params.valuesPerBranch :=
    Nat.mul_le_mul_right _ (Nat.mul_le_mul_right _ (Nat.le_succ c))
  have hstop : (c + 1) * levelWidth params.branchingFactor sizes level * params.valuesPerBranch ≤
      stop := (Nat.mul_le_mul_right _ hc).trans horigin
  have hsize := hcover.lt_of_bound hlevel (hc.trans hle)
  have hsum : rangeSum values
        ((c + 1) * levelWidth params.branchingFactor sizes level * params.valuesPerBranch) stop +
          indexEntry sizes index level c =
      rangeSum values (c * levelWidth params.branchingFactor sizes level * params.valuesPerBranch)
        stop := by
    rw [hindex.indexEntry_eq hcover hlength hlevel hsize, add_comm,
      rangeSum_add values hnext hstop]
  exact ⟨congrArg hits hsum, hsum⟩

omit hindex hcover

variable (hmono : Monotone hits) (hvalues : ∀ v ∈ values, 0 ≤ v) (rest : List α)

include hmono hvalues

/-- What is done with the end of a walk forward. -/
theorem endsFw_eq_scanFw {start origin : ℕ} (hstart : start ≤ values.length)
    (horigin : start ≤ origin * params.valuesPerBranch)
    (hmiss : hitBehind hits values params.valuesPerBranch start origin = false)
    {out : Option ℕ × α}
    (h : EndsFw (fun b => rangeSum values start (b * params.valuesPerBranch))
      (hitBehind hits values params.valuesPerBranch start) (lowestSize sizes) out) :
    (match out.1 with
      | some idx =>
          findFrom hits (values ++ rest) values.length (idx * params.valuesPerBranch) out.2
      | none => ⟨values.length, out.2⟩) = scanFw hits values start := by
  have hmissed {b : ℕ} (hb : hitBehind hits values params.valuesPerBranch start b = false)
      (hlt : start < b * params.valuesPerBranch) :
      hits (rangeSum values start (b * params.valuesPerBranch)) = false := by
    rwa [hitBehind, decide_eq_true hlt, Bool.true_and] at hb
  cases h with
  | hit i hi hmiss' hstop =>
      have hle : origin ≤ i := by
        by_contra hnot
        rw [hitBehind, Bool.and_eq_true, decide_eq_true_eq] at hstop
        have hblocks : (i + 1) * params.valuesPerBranch ≤ origin * params.valuesPerBranch :=
          Nat.mul_le_mul_right _ (by omega)
        have hsums := hmono (rangeSum_mono hvalues (Nat.le_of_lt hstop.1) hblocks)
        rw [hmissed hmiss (Nat.lt_of_lt_of_le hstop.1 hblocks), hstop.2] at hsums
        exact absurd hsums (by decide)
      exact findFrom_eq_scanFw hmono hvalues rest hstart
        (horigin.trans (Nat.mul_le_mul_right _ hle)) (hmissed hmiss')
  | miss hmiss' =>
      rw [← findFrom_eq_scanFw hmono hvalues rest hstart (hstart.trans hlength) (hmissed hmiss')]
      simp only [findFrom, List.take_left, List.drop_of_length_le hlength, sumScan, scan,
        Nat.add_zero, if_neg (Nat.not_lt.mpr hlength)]

omit hlength

/-- What is done with the end of a walk backward. -/
theorem endsBw_eq_scanBw {stop origin : ℕ} (hstop : stop ≤ values.length)
    (horigin : origin * params.valuesPerBranch ≤ stop) {out : Option ℤ × α}
    (h : EndsBw (fun b => rangeSum values (b * params.valuesPerBranch) stop)
      (fun b => hits (rangeSum values (b * params.valuesPerBranch) stop)) origin out) :
    (match out.1 with
      | some idx =>
          findBackFrom hits (values ++ rest) ((idx + 1) * params.valuesPerBranch - 1) out.2
      | none => ⟨-1, out.2⟩) = scanBw hits values ((stop : ℤ) - 1) := by
  cases h with
  | hit i hi hmiss' _ =>
      have hle : (i + 1) * params.valuesPerBranch ≤ stop :=
        (Nat.mul_le_mul_right _ hi).trans horigin
      rw [← findBackFrom_eq_scanBw hmono hvalues rest hstop hle fun _ => hmiss']
      norm_cast
  | miss hmiss' =>
      have hscan := findBackFrom_eq_scanBw hmono hvalues rest hstop (Nat.zero_le stop)
        fun _ => by rwa [Nat.zero_mul] at hmiss'
      rw [← hscan, findBackFrom]
      simp [sumScan, scan]

end Index

namespace Tree

section Searches

variable [AddCommMonoid α] {hits : α → Bool}
variable {params : Params α} {tree : Tree α blocks} {rows : List (Row α blocks)}

variable (h : tree.Searchable params rows)

include h

theorem Searchable.length_column (block : Fin blocks) : (column rows block).length = tree.size := by
  rw [column, List.length_map, h.carries.size_eq]

theorem Searchable.values (block : Fin blocks) :
    ∃ rest, (tree.columns block).values = column rows block ++ rest :=
  h.carries.values block

theorem Searchable.indexOf (block : Fin blocks) : IndexOf params (levelSizes params tree.maxSize)
    (column rows block) (tree.columns block).index :=
  h.indexed block

/-- The layout of a tree with an index. -/
theorem Searchable.layout (hlarge : params.valuesPerBranch < tree.maxSize) :
    LevelsCover params.branchingFactor (levelSizes params tree.maxSize) ∧
      ∀ block, (column rows block).length ≤
        lowestSize (levelSizes params tree.maxSize) * params.valuesPerBranch := by
  refine ⟨(levelSizes_of_gt hlarge).1, fun block => ?_⟩
  rw [h.length_column block]
  exact h.carries.size_le.trans (le_lowestSize hlarge)

theorem Searchable.index_eq_zero_iff (block : Fin blocks) :
    (tree.columns block).index.length = 0 ↔ tree.maxSize ≤ params.valuesPerBranch := by
  rw [h.segment block, h.carries.indexSize_eq]
  constructor
  · intro hzero
    by_contra hlarge
    have hcover := (levelSizes_of_gt (Nat.lt_of_not_le hlarge)).1
    rw [levelSizes_eq_nil_of_sum hzero] at hcover
    exact absurd hcover.length_pos (Nat.lt_irrefl 0)
  · intro hsmall
    rw [FseTree.indexSize, levelSizes, if_pos hsmall, List.sum_nil]

theorem Searchable.sumFromTo_eq (block : Fin blocks) (start : ℕ) {stop : ℕ} (hstop : stop ≤ tree.size) :
    tree.sumFromTo params block start stop = some (rangeSum (column rows block) start stop) := by
  obtain ⟨rest, hvalues⟩ := h.values block
  have hlen := h.length_column block
  have hVpos := params.values_pos
  have hpart (first : ℕ) {last : ℕ} (hlast : last ≤ stop) :
      rangeSum (tree.columns block).values first last = rangeSum (column rows block) first last := by
    rw [hvalues]
    exact rangeSum_append (hlast.trans (hlen ▸ hstop)) rest
  rw [sumFromTo]
  obtain ⟨b, hb⟩ : ∃ b, b = start / params.valuesPerBranch + 1 := ⟨_, rfl⟩
  obtain ⟨e, he⟩ : ∃ e, e = stop / params.valuesPerBranch := ⟨_, rfl⟩
  have hfirst : start ≤ b * params.valuesPerBranch :=
    Nat.le_of_lt ((Nat.div_lt_iff_lt_mul hVpos).mp (hb ▸ Nat.lt_succ_self _))
  have hlast : e * params.valuesPerBranch ≤ stop := he ▸ Nat.div_mul_le_self _ _
  simp only [← hb, ← he]
  split_ifs with hnear
  · rw [hpart start (Nat.le_refl stop)]
  · rw [not_or, not_or, Nat.not_le, Nat.not_le] at hnear
    obtain ⟨hcover, hlength⟩ := h.layout (by
      by_contra hsmall
      rw [levelSizes, if_pos (Nat.le_of_not_lt hsmall)] at hnear
      exact hnear.2.2 rfl)
    have hmid : b * params.valuesPerBranch ≤ e * params.valuesPerBranch := by omega
    have hwidth (c : ℕ) : c * levelWidth params.branchingFactor (levelSizes params tree.maxSize)
        ((levelSizes params tree.maxSize).length - 1) = c := by
      rw [levelWidth_lowest, Nat.mul_one]
    have hblocks : e ≤ lowestSize (levelSizes params tree.maxSize) := by
      apply Nat.le_of_mul_le_mul_right _ hVpos
      have hle := hlength block
      omega
    have hsum := (h.indexOf block).sumIndex_eq hcover (hlength block)
      (Nat.sub_one_lt_of_lt hcover.length_pos) (Nat.le_of_mul_le_mul_right hmid hVpos)
      (by rw [hwidth]; exact hblocks)
      (rangeSum (tree.columns block).values start (b * params.valuesPerBranch))
    rw [hwidth, hwidth] at hsum
    rw [Nat.mul_div_cancel _ hVpos, Nat.mul_div_cancel _ hVpos, hsum]
    simp only [Option.bind_eq_bind, Option.bind_some]
    rw [hpart start (hmid.trans hlast), hpart _ (Nat.le_refl stop), rangeSum_add _ hfirst hmid,
      rangeSum_add _ (hfirst.trans hmid) hlast]

/-- The root of an index has the sum of its column. -/
theorem Searchable.sum_eq (block : Fin blocks) :
    tree.sum params block = some (column rows block).sum := by
  have hlen := h.length_column block
  rw [sum]
  split_ifs with hempty
  · rw [h.sumFromTo_eq block 0 (Nat.le_refl _), rangeSum_all _ (Nat.le_of_eq hlen)]
  · have hlarge : params.valuesPerBranch < tree.maxSize := by
      rwa [h.index_eq_zero_iff block, Nat.not_le] at hempty
    obtain ⟨hcover, hlength⟩ := h.layout hlarge
    have hlowest : 0 < lowestSize (levelSizes params tree.maxSize) := by
      by_contra hzero
      have hle := le_lowestSize hlarge
      rw [Nat.eq_zero_of_not_pos hzero] at hle
      omega
    have hroot : 0 < (levelSizes params tree.maxSize).getD 0 0 :=
      (hcover.lt_iff 0 hcover.length_pos 0).mpr (by rwa [Nat.zero_mul])
    have hentry := (h.indexOf block).indexEntry_eq hcover (hlength block) hcover.length_pos hroot
    have hwidth : lowestSize (levelSizes params tree.maxSize) ≤
        (0 + 1) * levelWidth params.branchingFactor (levelSizes params tree.maxSize) 0 := by
      rw [← Nat.not_lt, ← hcover.lt_iff 0 hcover.length_pos, Nat.not_lt]
      exact hcover.root_le
    rw [Nat.zero_mul, Nat.zero_mul, rangeSum_all _
      ((hlength block).trans (Nat.mul_le_mul_right _ hwidth)), indexEntry, levelStart,
      List.take_zero, List.sum_nil, List.getD_eq_getElem _ _ (Nat.pos_of_ne_zero hempty)] at hentry
    rw [← hentry]
    exact List.getElem?_eq_getElem (Nat.pos_of_ne_zero hempty)

variable [LinearOrder α] [IsOrderedAddMonoid α]
variable (hmono : Monotone hits) (block : Fin blocks) (hnonneg : ∀ v ∈ column rows block, 0 ≤ v)

include hmono hnonneg

theorem Searchable.find_eq : tree.find params block hits = scanFw hits (column rows block) 0 := by
  obtain ⟨rest, hvalues⟩ := h.values block
  have hzero : rangeSum (column rows block) 0 0 = 0 := rangeSum_self _ 0
  rw [find]
  by_cases hsmall : tree.maxSize ≤ params.valuesPerBranch
  · rw [if_pos ((h.index_eq_zero_iff block).mpr hsmall), hvalues, ← h.length_column block, ← hzero]
    exact findFrom_eq_scanFw hmono hnonneg rest (Nat.zero_le _) (Nat.le_refl 0)
      fun hlt => absurd hlt (Nat.lt_irrefl 0)
  · rw [if_neg (by rw [h.index_eq_zero_iff block]; exact hsmall)]
    obtain ⟨hcover, hlength⟩ := h.layout (Nat.lt_of_not_le hsmall)
    have hmiss : hitBehind hits (column rows block) params.valuesPerBranch 0 0 = false := by
      rw [hitBehind, Nat.zero_mul, decide_eq_false (Nat.lt_irrefl 0), Bool.false_and]
    have htakes := @takesFw _ _ hits _ _ _ _ (h.indexOf block) hcover (hlength block) 0 0
      (Nat.zero_le _)
    have hends := htakes.findIndex hcover (one_lt_length_levelSizes (Nat.lt_of_not_le hsmall)) hmiss
    rw [Nat.zero_mul, hzero] at hends
    have hscan := endsFw_eq_scanFw (hlength block) hmono hnonneg rest (Nat.zero_le _) (Nat.zero_le _)
      hmiss hends
    rw [h.length_column block] at hscan
    rw [hvalues]
    exact hscan

theorem Searchable.walkFw_eq {fuel start : ℕ} (hfuel : 2 * (levelSizes params tree.maxSize).length ≤ fuel)
    (hstart : start ≤ tree.size) :
    tree.walkFw params block hits fuel start = some (scanFw hits (column rows block) start) := by
  obtain ⟨rest, hvalues⟩ := h.values block
  have hlen := h.length_column block
  have hVpos := params.values_pos
  rw [walkFw, hvalues]
  by_cases hnear : start + params.valuesPerBranch * 2 ≥ tree.size
  · have hzero : rangeSum (column rows block) start start = 0 := rangeSum_self _ start
    rw [if_pos hnear, ← hlen, ← hzero]
    exact congrArg some (findFrom_eq_scanFw hmono hnonneg rest (hlen ▸ hstart) (Nat.le_refl _)
      fun hlt => absurd hlt (Nat.lt_irrefl _))
  · rw [if_neg hnear]
    obtain ⟨hcover, hlength⟩ := h.layout (by
      have hle := h.carries.size_le
      omega : params.valuesPerBranch < tree.maxSize)
    obtain ⟨q, hq⟩ : ∃ q, q = start / params.valuesPerBranch + 1 := ⟨_, rfl⟩
    have hlow : q * params.valuesPerBranch ≤ start + params.valuesPerBranch := by
      rw [hq, Nat.add_one_mul]
      exact Nat.add_le_add_right (Nat.div_mul_le_self _ _) _
    have hhigh : start < q * params.valuesPerBranch :=
      (Nat.div_lt_iff_lt_mul hVpos).mp (by omega)
    have hsize : q * params.valuesPerBranch ≤ (column rows block).length := by omega
    have hwindow : ((column rows block ++ rest).take (q * params.valuesPerBranch)).drop start =
        ((column rows block).drop start).take (q * params.valuesPerBranch - start) := by
      rw [List.take_append_of_le_length hsize, List.drop_take]
    have hwidth : (((column rows block).drop start).take
        (q * params.valuesPerBranch - start)).length = q * params.valuesPerBranch - start := by
      rw [List.length_take, List.length_drop]
      omega
    simp only [← hq, hwindow]
    rcases sumScan_row hits 0 (((column rows block).drop start).take
        (q * params.valuesPerBranch - start)) with ⟨hfound, hscan⟩ | ⟨hscan, hmiss⟩
    · rw [hwidth] at hfound
      have hall : sumScan hits 0 ((column rows block).drop start) = _ :=
        (congrArg _ (drop_eq_take_append (Nat.le_of_lt hhigh))).trans (hscan _)
      rw [if_pos (by omega), scanFw, hall]
    · rw [hwidth, zero_add, ← rangeSum] at hscan
      have hbehind : hitBehind hits (column rows block) params.valuesPerBranch start q = false := by
        have hne := List.ne_nil_of_length_pos (hwidth ▸ Nat.sub_pos_of_lt hhigh)
        have hlast := hmiss hne
        rw [zero_add, ← rangeSum] at hlast
        rw [hitBehind, hlast, Bool.and_false]
      obtain ⟨out, hwalk, hends⟩ := (@takesFw _ _ hits _ _ _ _ (h.indexOf block) hcover
        (hlength block) start q (Nat.le_of_lt hhigh)).walkIndex hcover hfuel
          (Nat.le_of_mul_le_mul_right (hsize.trans (hlength block)) hVpos) hbehind
      rw [hscan, if_neg (by dsimp only; omega), Nat.mul_div_cancel _ hVpos, hwalk,
        ← endsFw_eq_scanFw (hlength block) hmono hnonneg rest (hlen ▸ hstart)
          (Nat.le_of_lt hhigh) hbehind hends, hlen]
      obtain ⟨idx, sum⟩ := out
      cases idx with
      | none => rfl
      | some idx => rfl

theorem Searchable.walkBw_eq {fuel n : ℕ} (hfuel : 2 * (levelSizes params tree.maxSize).length ≤ fuel)
    (hn : n ≤ tree.size) :
    tree.walkBw params block hits fuel ((n : ℤ) - 1) =
      some (scanBw hits (column rows block) ((n : ℤ) - 1)) := by
  obtain ⟨rest, hvalues⟩ := h.values block
  have hlen := h.length_column block
  have hVpos := params.values_pos
  rw [walkBw, hvalues]
  by_cases hnear : (n : ℤ) - 1 < params.valuesPerBranch * 2
  · have hzero : rangeSum (column rows block) n n = 0 := rangeSum_self _ n
    rw [if_pos hnear, ← hzero]
    exact congrArg some (findBackFrom_eq_scanBw hmono hnonneg rest (hlen ▸ hn) (Nat.le_refl _)
      fun hlt => absurd hlt (Nat.lt_irrefl _))
  · rw [if_neg hnear]
    obtain ⟨hcover, hlength⟩ := h.layout (by
      have hle := h.carries.size_le
      omega : params.valuesPerBranch < tree.maxSize)
    obtain ⟨q, hq⟩ : ∃ q, q = (n - 1) / params.valuesPerBranch := ⟨_, rfl⟩
    have hlow : q * params.valuesPerBranch ≤ n - 1 := hq ▸ Nat.div_mul_le_self _ _
    have hend : ((n : ℤ) - 1) / params.valuesPerBranch * params.valuesPerBranch - 1 =
        ((q * params.valuesPerBranch : ℕ) : ℤ) - 1 := by
      have hcast : ((n : ℤ) - 1) = ((n - 1 : ℕ) : ℤ) := by omega
      rw [hcast, hq, ← Int.natCast_ediv, Nat.cast_mul]
    have hlast : (n : ℤ) - 1 + 1 = (n : ℕ) := by omega
    have hfirst : ((q * params.valuesPerBranch : ℕ) : ℤ) - 1 + 1 = (q * params.valuesPerBranch : ℕ) := by
      omega
    have hwindow : (((column rows block ++ rest).take n).drop (q * params.valuesPerBranch)).reverse =
        (((column rows block).drop (q * params.valuesPerBranch)).take
          (n - q * params.valuesPerBranch)).reverse := by
      rw [List.take_append_of_le_length (hlen ▸ hn), List.drop_take]
    have hwidth : (((column rows block).drop (q * params.valuesPerBranch)).take
        (n - q * params.valuesPerBranch)).reverse.length = n - q * params.valuesPerBranch := by
      rw [List.length_reverse, List.length_take, List.length_drop]
      omega
    simp only [hend, hlast, hfirst, Int.toNat_natCast, hwindow]
    rcases sumScan_row hits 0 (((column rows block).drop (q * params.valuesPerBranch)).take
        (n - q * params.valuesPerBranch)).reverse with ⟨hfound, hscan⟩ | ⟨hscan, hmiss⟩
    · rw [hwidth] at hfound
      have hall : sumScan hits 0 ((column rows block).take n).reverse = _ :=
        (congrArg _ (reverse_take_eq_append (by omega))).trans (hscan _)
      rw [if_pos (by omega), scanBw, hlast, Int.toNat_natCast, hall]
    · rw [hwidth, zero_add, List.sum_reverse, ← rangeSum] at hscan
      have hmissed : hits (rangeSum (column rows block) (q * params.valuesPerBranch) n) = false := by
        have hne := List.ne_nil_of_length_pos
          (hwidth ▸ Nat.sub_pos_of_lt (by omega : q * params.valuesPerBranch < n))
        have hlast := hmiss hne
        rwa [zero_add, List.sum_reverse, ← rangeSum] at hlast
      have horigin : q ≤ lowestSize (levelSizes params tree.maxSize) := by
        apply Nat.le_of_mul_le_mul_right _ hVpos
        have hle := hlength block
        omega
      obtain ⟨out, hwalk, hends⟩ := (@takesBw _ _ hits _ _ _ _ (h.indexOf block) hcover
        (hlength block) n q (by omega) horigin).walkIndex hcover hfuel horigin hmissed
      have hblock : (((q * params.valuesPerBranch : ℕ) : ℤ) - 1) / params.valuesPerBranch = (q : ℤ) - 1 := by
        rw [Nat.cast_mul, sub_eq_add_neg, Int.add_comm, Int.add_mul_ediv_right _ _ (by omega),
          Int.ediv_eq_neg_one_of_neg_of_le (by omega) (by omega)]
        omega
      rw [hscan, if_neg (by dsimp only; omega), hblock, hwalk,
        ← endsBw_eq_scanBw hmono hnonneg rest (hlen ▸ hn) (by omega) hends]
      obtain ⟨idx, sum⟩ := out
      cases idx with
      | none => rfl
      | some idx => rfl

end Searches

end Tree

namespace Tree

variable {params : Params α} {tree tree' other other' : Tree α blocks}

def Allotted (params : Params α) (tree : Tree α blocks) : Prop :=
  tree.indexSize = FseTree.indexSize params tree.maxSize ∧
    (tree.indexSize = 0 → ∀ block, (tree.columns block).index = [])

theorem Allotted.resize (hzero : params.segment 0 = 0) {capacity : ℕ}
    (hresize : tree.resize params capacity = some tree') : tree'.Allotted params := by
  rw [Tree.resize, Option.ite_none_right_eq_some] at hresize
  obtain rfl := Option.some.inj hresize.2
  refine ⟨rfl, fun hempty block => ?_⟩
  dsimp only at hempty ⊢
  rw [hempty, hzero, resizeSegment, List.take_zero, Nat.zero_sub, List.replicate_zero,
    List.append_nil]

variable [AddCommMonoid α]

theorem Allotted.insertSpace (hzero : params.segment 0 = 0) (h : tree.Allotted params)
    {idx roomLength : ℕ} (hspace : tree.insertSpace params idx roomLength = some tree') :
    tree'.Allotted params := by
  rw [Tree.insertSpace, Option.ite_none_left_eq_some] at hspace
  obtain ⟨resized, hresized, htree⟩ := Option.bind_eq_some_iff.mp hspace.2
  obtain rfl := Option.some.inj htree
  split_ifs at hresized with hfull
  · have hallotted := Allotted.resize hzero hresized
    exact hallotted
  · obtain rfl := Option.some.inj hresized
    exact h

theorem Allotted.reindex (h : tree.Allotted params) : (tree.reindex params).Allotted params := by
  refine ⟨rfl, fun hempty block => ?_⟩
  have hindex : FseTree.indexSize params tree.maxSize = 0 := hempty
  have hcolumn : (tree.reindex params).columns block = tree.columns block := by
    rw [Tree.reindex]
    dsimp only
    rw [if_neg (by rw [levelSizes_eq_nil_of_sum hindex]; exact Nat.lt_irrefl 0)]
  rw [hcolumn]
  exact h.2 (h.1.trans hindex) block

theorem Allotted.remove (hzero : params.segment 0 = 0) {start stop : ℕ}
    (hremove : tree.remove params start stop = some tree') : tree'.Allotted params := by
  rw [Tree.remove, Option.ite_none_right_eq_some] at hremove
  obtain ⟨resized, hresize, htree⟩ := Option.bind_eq_some_iff.mp hremove.2
  obtain rfl := Option.some.inj htree
  exact (Allotted.resize hzero hresize).reindex

theorem Allotted.insertEntries (hzero : params.segment 0 = 0) (h : tree.Allotted params) {rowAt : ℕ}
    {entries : List (Row α blocks)} {reindex : Bool}
    (hinsert : tree.insertEntries params rowAt entries reindex = some tree') :
    tree'.Allotted params := by
  obtain ⟨spaced, hspace, htree⟩ := Option.bind_eq_some_iff.mp hinsert
  obtain rfl := Option.some.inj htree
  have hspaced := h.insertSpace hzero hspace
  cases reindex with
  | true => exact Allotted.reindex hspaced
  | false => exact hspaced

theorem Allotted.splitTo (hzero : params.segment 0 = 0) (h : tree.Allotted params)
    (hother : other.Allotted params) {idx : ℕ}
    (hsplit : tree.splitTo params other idx = some (tree', other')) :
    tree'.Allotted params ∧ other'.Allotted params := by
  rw [Tree.splitTo] at hsplit
  dsimp only at hsplit
  split_ifs at hsplit with hsome
  · obtain ⟨spaced, hspace, hsplit⟩ := Option.bind_eq_some_iff.mp hsplit
    obtain ⟨removed, hremove, htrees⟩ := Option.bind_eq_some_iff.mp hsplit
    obtain ⟨rfl, rfl⟩ := Prod.mk.inj (Option.some.inj htrees)
    have hspaced := hother.insertSpace hzero hspace
    have hcopied : (tree.copyTo spaced idx (tree.size - idx) 0).Allotted params := hspaced
    exact ⟨(Allotted.remove hzero hremove).reindex, hcopied.reindex⟩
  · obtain ⟨rfl, rfl⟩ := Prod.mk.inj (Option.some.inj hsplit)
    exact ⟨h, hother⟩

theorem Allotted.mergeWith (hzero : params.segment 0 = 0) (hother : other.Allotted params)
    (hmerge : tree.mergeWith params other = some other') : other'.Allotted params := by
  obtain ⟨spaced, hspace, htree⟩ := Option.bind_eq_some_iff.mp hmerge
  obtain rfl := Option.some.inj htree
  have hspaced := hother.insertSpace hzero hspace
  have hcopied : (tree.copyTo spaced 0 tree.size other.size).Allotted params := hspaced
  exact hcopied.reindex

theorem Allotted.searchable (h : tree.Allotted params) {rows : List (Row α blocks)}
    (hcarries : tree.Carries params rows) (hindexed : tree.Indexed params rows) :
    tree.Searchable params rows := by
  refine ⟨hcarries, hindexed, fun block => ⟨fun hempty => ?_, fun hempty => ?_⟩⟩
  · have hroom := hcarries.index_room block
    omega
  · rw [h.2 hempty block, List.length_nil]

end Tree

namespace Session

variable {ι : Type} [DecidableEq ι] [AddCommMonoid α] {params : Params α} {s s' : Session ι α blocks}

omit [AddCommMonoid α] in
theorem put_allotted (h : ∀ t, (s.trees t).Allotted params) (t : ι) {tree : Tree α blocks}
    (htree : tree.Allotted params) (rows : List (Row α blocks)) (deferred : Bool) (t' : ι) :
    ((s.put t tree rows deferred).trees t').Allotted params := by
  by_cases ht : t' = t
  · subst ht
    simpa [Session.put] using htree
  · simpa [Session.put, ht] using h t'

theorem step_allotted (hzero : params.segment 0 = 0) (h : ∀ t, (s.trees t).Allotted params)
    {op : Op ι α blocks} (hstep : s.step params op = some s') (t' : ι) :
    (s'.trees t').Allotted params := by
  cases op with
  | insertEntries t rowAt entries reindex =>
      obtain ⟨tree, hinsert, hs'⟩ := Option.bind_eq_some_iff.mp hstep
      obtain rfl := Option.some.inj hs'
      exact put_allotted h t ((h t).insertEntries hzero hinsert) _ _ t'
  | remove t start stop =>
      obtain ⟨tree, hremove, hs'⟩ := Option.bind_eq_some_iff.mp hstep
      obtain rfl := Option.some.inj hs'
      exact put_allotted h t (Tree.Allotted.remove hzero hremove) _ _ t'
  | splitTo t other idx =>
      rw [Session.step, Option.ite_none_left_eq_some] at hstep
      obtain ⟨⟨tree, otherTree⟩, hsplit, hs'⟩ := Option.bind_eq_some_iff.mp hstep.2
      obtain rfl := Option.some.inj hs'
      obtain ⟨htree, hother⟩ := (h t).splitTo hzero (h other) hsplit
      exact put_allotted (put_allotted h t htree _ _) other hother _ _ t'
  | mergeWith t other =>
      rw [Session.step, Option.ite_none_left_eq_some] at hstep
      obtain ⟨otherTree, hmerge, hs'⟩ := Option.bind_eq_some_iff.mp hstep.2
      obtain rfl := Option.some.inj hs'
      exact put_allotted h other ((h other).mergeWith hzero hmerge) _ _ t'
  | reindex t =>
      obtain rfl := Option.some.inj hstep
      exact put_allotted h t (h t).reindex _ _ t'

/-- The trees of a run can be searched, save those whose index is left to a later `reindex`. -/
theorem run_searchable (params : Params α) (hzero : params.segment 0 = 0) (capacity : ι → ℕ)
    (ops : List (Op ι α blocks)) :
    EveryState (Session.step params)
      (fun s => ∀ t, s.deferred t = false → (s.trees t).Searchable params (s.rows t))
      (Session.start params capacity) ops := by
  have hstart : (Session.start params capacity : Session ι α blocks).Right params ∧
      ∀ t, ((Session.start params capacity : Session ι α blocks).trees t).Allotted params := by
    refine ⟨⟨fun t => (Tree.init_shows (capacity t)).carries,
      fun t _ => (Tree.init_shows (capacity t)).indexed⟩, fun t => ⟨rfl, fun hempty block => ?_⟩⟩
    have hindex : FseTree.indexSize params (capacity t) = 0 := hempty
    simp only [Session.start, Tree.init, hindex, hzero, List.replicate_zero]
  refine EveryState.of_invariant (P := fun _ _ => True)
    (I := fun s => s.Right params ∧ ∀ t, (s.trees t).Allotted params)
    (fun s op s' h _ hstep => ⟨h.1.step hstep, step_allotted hzero h.2 hstep⟩) ?_ hstart
    (EveryStep.trivial_of (fun _ _ => trivial) _ _)
  intro s h t hnow
  exact (h.2 t).searchable (h.1.carries t) (h.1.indexed t hnow)

end Session

section Walkers

variable [LinearOrder α] (target : α)

theorem findGEWalker_mono : Monotone (findGEWalker target) := by
  intro a b hab
  rw [Bool.le_iff_imp, findGEWalker, findGEWalker, decide_eq_true_eq, decide_eq_true_eq]
  exact fun hle => hle.trans hab

theorem findGTWalker_mono : Monotone (findGTWalker target) := by
  intro a b hab
  rw [Bool.le_iff_imp, findGTWalker, findGTWalker, decide_eq_true_eq, decide_eq_true_eq]
  exact fun hlt => hlt.trans_le hab

end Walkers

namespace Tree

variable [AddCommMonoid α] [LinearOrder α] [IsOrderedAddMonoid α]
variable {params : Params α} {tree : Tree α blocks} {rows : List (Row α blocks)}

/-- Sums and searches in a tree with an index that is up to date are those of the linear scan, from
every position and for every target. The walks end within two steps a level. -/
theorem searches_eq_scans (h : tree.Searchable params rows) (block : Fin blocks)
    (hnonneg : ∀ v ∈ column rows block, 0 ≤ v) (value : α) {fuel : ℕ}
    (hfuel : 2 * (levelSizes params tree.maxSize).length ≤ fuel) :
    (tree.sum params block = some (column rows block).sum ∧
      ∀ stop ≤ tree.size,
        tree.sumTo params block stop = some (rangeSum (column rows block) 0 stop) ∧
        ∀ start, tree.sumFromTo params block start stop =
          some (rangeSum (column rows block) start stop)) ∧
    (tree.findGe params block value = scanFw (findGEWalker value) (column rows block) 0 ∧
      tree.findGt params block value = scanFw (findGTWalker value) (column rows block) 0) ∧
    (∀ start ≤ tree.size,
      tree.findGeFw params block fuel start value =
        some (scanFw (findGEWalker value) (column rows block) start) ∧
      tree.findGtFw params block fuel start value =
        some (scanFw (findGTWalker value) (column rows block) start)) ∧
    ∀ start : ℤ, -1 ≤ start → start < tree.size →
      tree.findGeBw params block fuel start value =
        some (scanBw (findGEWalker value) (column rows block) start) ∧
      tree.findGtBw params block fuel start value =
        some (scanBw (findGTWalker value) (column rows block) start) := by
  have hge := findGEWalker_mono value
  have hgt := findGTWalker_mono value
  refine ⟨⟨h.sum_eq block, fun stop hstop => ?_⟩, ?_, fun start hstart => ?_,
    fun start hfirst hstart => ?_⟩
  · exact ⟨h.sumFromTo_eq block 0 hstop, fun start => h.sumFromTo_eq block start hstop⟩
  · exact ⟨h.find_eq hge block hnonneg, h.find_eq hgt block hnonneg⟩
  · exact ⟨h.walkFw_eq hge block hnonneg hfuel hstart, h.walkFw_eq hgt block hnonneg hfuel hstart⟩
  · obtain ⟨n, rfl⟩ : ∃ n : ℕ, start = (n : ℤ) - 1 := ⟨(start + 1).toNat, by omega⟩
    have hn : n ≤ tree.size := by omega
    exact ⟨h.walkBw_eq hge block hnonneg hfuel hn, h.walkBw_eq hgt block hnonneg hfuel hn⟩

def rowsTree (rows : List (Row ℕ blocks)) : Tree ℕ blocks :=
  ((Tree.init quickTreeParams 0).insertEntries quickTreeParams 0 rows true).getD
    (Tree.init quickTreeParams 0)

theorem rowsTree_searchable (rows : List (Row ℕ blocks)) :
    (rowsTree rows).Searchable quickTreeParams rows := by
  have hinsert : (Tree.init quickTreeParams 0 : Tree ℕ blocks).insertEntries quickTreeParams 0 rows
      true = some (rowsTree rows) := by
    cases rows with
    | nil => rfl
    | cons row rows => rfl
  have hempty : (Tree.init quickTreeParams 0 : Tree ℕ blocks).Allotted quickTreeParams :=
    ⟨rfl, fun _ _ => rfl⟩
  have hcarries := (@Tree.init_shows ℕ blocks _ quickTreeParams 0).carries.insertEntries hinsert
  simp only [List.take_nil, List.drop_nil, List.nil_append, List.append_nil] at hcarries
  exact (hempty.insertEntries rfl hinsert).searchable hcarries.1 (hcarries.2 trivial)

def indexedTree : Tree ℕ 1 := rowsTree (List.replicate 70 fun _ => 1)

/-- A search that passes the whole of the second block. -/
theorem searches_eq_scans_indexedTree :
    indexedTree.findGeFw quickTreeParams 0 4 1 66 =
      some (scanFw (findGEWalker 66) (column (List.replicate 70 fun _ => 1) (0 : Fin 1)) 1) :=
  ((searches_eq_scans (rowsTree_searchable (List.replicate 70 fun _ => 1)) 0 (fun _ _ => Nat.zero_le _) 66 (by decide)).2.2.1 1
    (by decide)).1

end Tree

end Memoria.FseTree

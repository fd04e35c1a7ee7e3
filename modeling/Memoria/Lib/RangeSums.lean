import Mathlib.Algebra.BigOperators.Group.List.Basic
import Mathlib.Algebra.Order.BigOperators.Group.List
import Mathlib.Algebra.Order.Monoid.Defs
import Memoria.Lib.IndexWalk

/-!
# Sums over ranges of a list

The sum from one position to another is the sum of its parts. A search adds values up until a sum is
hit: it passes a row at once when the sum behind the row is not hit, for values that are not
negative.
-/

namespace Memoria.Lib

variable {α : Type}

def rangeSum [AddCommMonoid α] (vs : List α) (start stop : ℕ) : α :=
  ((vs.drop start).take (stop - start)).sum

section Sums

variable [AddCommMonoid α] (vs : List α)

theorem rangeSum_self (start : ℕ) : rangeSum vs start start = 0 := by
  rw [rangeSum, Nat.sub_self, List.take_zero, List.sum_nil]

theorem rangeSum_add {a b c : ℕ} (hab : a ≤ b) (hbc : b ≤ c) :
    rangeSum vs a b + rangeSum vs b c = rangeSum vs a c := by
  have hcut : (vs.drop b).take (c - b) = ((vs.drop a).drop (b - a)).take (c - b) := by
    rw [List.drop_drop, Nat.add_sub_cancel' hab]
  rw [rangeSum, rangeSum, rangeSum, hcut, ← List.sum_append, ← List.take_add]
  congr 2
  omega

theorem rangeSum_min (start stop : ℕ) :
    rangeSum vs start (min stop vs.length) = rangeSum vs start stop := by
  rcases Nat.le_total stop vs.length with h | h
  · rw [Nat.min_eq_left h]
  · rw [rangeSum, rangeSum, Nat.min_eq_right h, List.take_of_length_le, List.take_of_length_le]
    · rw [List.length_drop]
      omega
    · rw [List.length_drop]

/-- Behind the end there is nothing to add. -/
theorem rangeSum_congr {start a b : ℕ} (h : min a vs.length = min b vs.length) :
    rangeSum vs start a = rangeSum vs start b := by
  rw [← rangeSum_min vs start a, h, rangeSum_min]

theorem rangeSum_succ {start stop : ℕ} {v : α} (hle : start ≤ stop) (h : vs[stop]? = some v) :
    rangeSum vs start (stop + 1) = rangeSum vs start stop + v := by
  have hlast : rangeSum vs stop (stop + 1) = v := by
    rw [rangeSum, Nat.add_sub_cancel_left, List.take_one, List.head?_drop, h, Option.toList_some,
      List.sum_singleton]
  rw [← rangeSum_add vs hle (Nat.le_succ stop), hlast]

theorem rangeSum_append {vs : List α} {start stop : ℕ} (h : stop ≤ vs.length) (rest : List α) :
    rangeSum (vs ++ rest) start stop = rangeSum vs start stop := by
  rw [rangeSum, rangeSum, ← List.drop_take, ← List.drop_take, List.take_append_of_le_length h]

theorem rangeSum_all (vs : List α) {stop : ℕ} (h : vs.length ≤ stop) :
    rangeSum vs 0 stop = vs.sum := by
  rw [rangeSum, List.drop_zero, Nat.sub_zero, List.take_of_length_le h]

/-- The sums from the beginning on, given by what each value adds. -/
theorem rangeSum_eq_of_steps {total : ℕ → α} (hzero : total 0 = 0)
    (hstep : ∀ c v, vs[c]? = some v → total c + v = total (c + 1)) {c : ℕ} (hc : c ≤ vs.length) :
    rangeSum vs 0 c = total c := by
  induction c with
  | zero => rw [rangeSum_self, hzero]
  | succ c ih =>
      have hget := List.getElem?_eq_getElem (Nat.lt_of_succ_le hc)
      rw [rangeSum_succ vs (Nat.zero_le c) hget, ih (Nat.le_of_succ_le hc), hstep c _ hget]

/-- The sums of blocks of one width add up to those of the values. -/
theorem rangeSum_blocks {sums : List α} {width : ℕ}
    (hsums : ∀ c sum, sums[c]? = some sum → sum = rangeSum vs (c * width) ((c + 1) * width))
    (hlength : vs.length ≤ sums.length * width) {start stop : ℕ} (hle : start ≤ stop) :
    rangeSum sums start stop = rangeSum vs (start * width) (stop * width) := by
  obtain ⟨n, rfl⟩ := Nat.exists_eq_add_of_le hle
  induction n with
  | zero => rw [Nat.add_zero, rangeSum_self, rangeSum_self]
  | succ n ih =>
      have hmono : start * width ≤ (start + n) * width := Nat.mul_le_mul_right _ (Nat.le_add_right _ _)
      have hnext : (start + n) * width ≤ (start + n + 1) * width := Nat.mul_le_mul_right _ (Nat.le_succ _)
      have hprev := ih (Nat.le_add_right start n)
      rw [← Nat.add_assoc]
      cases hget : sums[start + n]? with
      | some sum =>
          rw [rangeSum_succ _ (Nat.le_add_right start n) hget, hprev, hsums _ _ hget,
            rangeSum_add vs hmono hnext]
      | none =>
          have hend : sums.length ≤ start + n := List.getElem?_eq_none_iff.mp hget
          have hbehind : vs.length ≤ (start + n) * width :=
            hlength.trans (Nat.mul_le_mul_right _ hend)
          rw [rangeSum_congr sums (b := start + n) (by omega), hprev]
          apply rangeSum_congr
          rw [Nat.min_eq_right hbehind, Nat.min_eq_right (hbehind.trans hnext)]

end Sums

section Searches

variable [AddCommMonoid α]

def sumScan (hits : α → Bool) : α → List α → ℕ × α :=
  scan (fun sum value => hits (sum + value)) (· + ·)

variable {hits : α → Bool}

theorem sumScan_le (hits : α → Bool) (sum : α) (vs : List α) :
    (sumScan hits sum vs).1 ≤ vs.length :=
  scan_le sum vs

/-- The scan stops before the first element with which the sum is a hit. -/
theorem sumScan_spec (hits : α → Bool) (sum : α) (vs : List α) :
    ∃ m ≤ vs.length, sumScan hits sum vs = (m, sum + (vs.take m).sum) ∧
      (∀ c < m, hits (sum + (vs.take (c + 1)).sum) = false) ∧
      (m < vs.length → hits (sum + (vs.take (m + 1)).sum) = true) := by
  have hstates : ∀ c v, vs[c]? = some v →
      hits (sum + (vs.take c).sum + v) = hits (sum + (vs.take (c + 1)).sum) ∧
        sum + (vs.take c).sum + v = sum + (vs.take (c + 1)).sum := by
    intro c v hv
    have hnext : sum + (vs.take c).sum + v = sum + (vs.take (c + 1)).sum := by
      rw [List.take_add_one, hv, Option.toList_some, List.sum_append, List.sum_singleton, add_assoc]
    exact ⟨by rw [hnext], hnext⟩
  obtain ⟨m, hm, hscan, hmiss, hend⟩ := @scan_spec α α (fun sum value => hits (sum + value)) (· + ·)
    (fun c => sum + (vs.take c).sum) (fun c => hits (sum + (vs.take c).sum)) vs hstates
  rw [List.take_zero, List.sum_nil, add_zero] at hscan
  exact ⟨m, hm, hscan, hmiss, hend⟩

theorem sumScan_of_steps (hits : α → Bool) {vs : List α} {total : ℕ → α} (hzero : total 0 = 0)
    (hstep : ∀ c v, vs[c]? = some v → total c + v = total (c + 1)) :
    ∃ m ≤ vs.length, sumScan hits 0 vs = (m, total m) ∧
      (∀ c < m, hits (total (c + 1)) = false) ∧ (m < vs.length → hits (total (m + 1)) = true) := by
  have hsum {c : ℕ} (hc : c ≤ vs.length) : 0 + (vs.take c).sum = total c := by
    rw [zero_add, ← rangeSum_eq_of_steps vs hzero hstep hc, rangeSum, List.drop_zero, Nat.sub_zero]
  obtain ⟨m, hm, hscan, hmiss, hhit⟩ := sumScan_spec hits 0 vs
  rw [hsum hm] at hscan
  refine ⟨m, hm, hscan, fun c hc => ?_, fun hlt => ?_⟩
  · rw [← hsum (hm.trans' hc)]
    exact hmiss c hc
  · rw [← hsum hlt]
    exact hhit hlt

/-- A search ends in a row, or it passes the row. -/
theorem sumScan_row (hits : α → Bool) (sum : α) (vs : List α) :
    ((sumScan hits sum vs).1 < vs.length ∧
      ∀ rest, sumScan hits sum (vs ++ rest) = sumScan hits sum vs) ∨
    (sumScan hits sum vs = (vs.length, sum + vs.sum) ∧
      (vs ≠ [] → hits (sum + vs.sum) = false)) := by
  obtain ⟨m, hm, hscan, hmiss, -⟩ := sumScan_spec hits sum vs
  rcases Nat.lt_or_eq_of_le hm with hlt | rfl
  · left
    have hfirst : (sumScan hits sum vs).1 < vs.length := by rwa [hscan]
    exact ⟨hfirst, fun rest => scan_append_of_lt hfirst rest⟩
  · right
    rw [List.take_length] at hscan
    refine ⟨hscan, fun hne => ?_⟩
    have hlast := hmiss (vs.length - 1) (Nat.sub_one_lt_of_lt (List.length_pos_iff.mpr hne))
    rwa [Nat.sub_add_cancel (List.length_pos_iff.mpr hne), List.take_length] at hlast

variable [LinearOrder α] [IsOrderedAddMonoid α]

theorem rangeSum_nonneg {vs : List α} (hvs : ∀ v ∈ vs, 0 ≤ v) (start stop : ℕ) :
    0 ≤ rangeSum vs start stop :=
  List.sum_nonneg fun v hv => hvs v (List.mem_of_mem_drop (List.mem_of_mem_take hv))

theorem rangeSum_mono {vs : List α} (hvs : ∀ v ∈ vs, 0 ≤ v) {start a b : ℕ} (hstart : start ≤ a)
    (hab : a ≤ b) : rangeSum vs start a ≤ rangeSum vs start b := by
  rw [← rangeSum_add vs hstart hab]
  exact le_add_of_nonneg_right (rangeSum_nonneg hvs a b)

/-- A row whose last sum is not hit is passed. -/
theorem sumScan_passes (hmono : Monotone hits) {vs : List α} (hvs : ∀ v ∈ vs, 0 ≤ v) (sum : α)
    (h : vs ≠ [] → hits (sum + vs.sum) = false) :
    sumScan hits sum vs = (vs.length, sum + vs.sum) := by
  induction vs generalizing sum with
  | nil => simp [sumScan, scan]
  | cons v vs ih =>
      have hlast := h (List.cons_ne_nil v vs)
      have hrest : 0 ≤ vs.sum := List.sum_nonneg fun u hu => hvs u (List.mem_cons_of_mem v hu)
      rw [List.sum_cons, ← add_assoc] at hlast
      have hfirst : hits (sum + v) = false := by
        have hle := hmono (le_add_of_nonneg_right hrest : sum + v ≤ sum + v + vs.sum)
        rw [hlast] at hle
        exact Bool.eq_false_of_le_false hle
      have hscan := ih (fun u hu => hvs u (List.mem_cons_of_mem v hu)) (sum + v) fun _ => hlast
      rw [sumScan] at hscan
      rw [sumScan, scan, if_neg (by rw [hfirst]; exact Bool.false_ne_true), hscan, List.sum_cons,
        List.length_cons, add_assoc]

theorem sumScan_append (hmono : Monotone hits) {vs : List α} (hvs : ∀ v ∈ vs, 0 ≤ v) (sum : α)
    (h : vs ≠ [] → hits (sum + vs.sum) = false) (rest : List α) :
    sumScan hits sum (vs ++ rest) =
      (vs.length + (sumScan hits (sum + vs.sum) rest).1, (sumScan hits (sum + vs.sum) rest).2) := by
  have hpass := sumScan_passes hmono hvs sum h
  rw [sumScan] at hpass ⊢
  rw [scan_append (by rw [hpass]), hpass]

end Searches

end Memoria.Lib

import Memoria.Lib.IndexWalk
import Memoria.VleTree

/-!
# The levels of the indexes

The layout of an index rounds up from level to level, so that every level stands for all the blocks
below it.
-/

namespace Memoria.VleTree

open Lib

theorem upperSizes_getD {b d total : ℕ} (hb : 0 < b) (hd : 0 < d) {fuel k : ℕ}
    (hk : k ≤ (upperSizes b fuel (divUp total d)).length) :
    (divUp total d :: upperSizes b fuel (divUp total d)).getD k 0 = divUp total (d * b ^ k) := by
  induction fuel generalizing d k with
  | zero =>
      obtain rfl : k = 0 := by
        rw [upperSizes, List.length_nil] at hk
        omega
      rw [Nat.pow_zero, Nat.mul_one]
      rfl
  | succ fuel ih =>
      cases k with
      | zero =>
          rw [Nat.pow_zero, Nat.mul_one]
          rfl
      | succ k =>
          have hstep : d * b ^ (k + 1) = d * b * b ^ k := by rw [Nat.pow_succ', Nat.mul_assoc]
          rw [List.getD_cons_succ, hstep]
          simp only [upperSizes, divUp_divUp hd hb] at hk ⊢
          split_ifs at hk ⊢ with hmore
          · exact ih (Nat.mul_pos hd hb) (Nat.le_of_succ_le_succ hk)
          · obtain rfl : k = 0 := by
              rw [List.length_singleton] at hk
              omega
            rw [Nat.pow_zero, Nat.mul_one]
            rfl

theorem upperSizes_ne_nil (b size : ℕ) {fuel : ℕ} (h : 0 < fuel) :
    upperSizes b fuel size ≠ [] := by
  cases fuel with
  | zero => omega
  | succ fuel =>
      simp only [upperSizes]
      split_ifs <;> exact List.cons_ne_nil _ _

theorem divUp_lt {b n : ℕ} (hb : 2 ≤ b) (hn : 2 ≤ n) : divUp n b < n := by
  have hle : divUp n b ≤ n - 1 := by
    rw [divUp_le_iff (by omega)]
    calc n ≤ 2 * (n - 1) := by omega
      _ ≤ b * (n - 1) := Nat.mul_le_mul_right _ hb
  omega

/-- The root has one entry. -/
theorem upperSizes_last {b : ℕ} (hb : 2 ≤ b) {n fuel last : ℕ} (hfuel : n ≤ fuel + 1)
    (h : (upperSizes b fuel n).getLast? = some last) : last ≤ 1 := by
  induction fuel generalizing n with
  | zero => cases h
  | succ fuel ih =>
      simp only [upperSizes] at h
      split_ifs at h with hmore
      · have hlt : divUp n b < n := by
          apply divUp_lt hb
          by_contra hn
          have hone : divUp n b ≤ 1 := (divUp_le_iff (by omega)).mpr (by omega)
          omega
        cases fuel with
        | zero => omega
        | succ fuel =>
            have hne := upperSizes_ne_nil b (divUp n b) (Nat.succ_pos fuel)
            rw [List.getLast?_cons_of_ne_nil hne] at h
            exact ih (by omega) h
      · rw [List.getLast?_singleton, Option.some_inj] at h
        omega

/-- The levels over `n` blocks, from the root on. -/
theorem levelsCover {b n : ℕ} (hb : 2 ≤ b) (hn : 0 < n) :
    LevelsCover b (n :: upperSizes b n n).reverse ∧
      lowestSize (n :: upperSizes b n n).reverse = n := by
  have hpos : 0 < b := by omega
  have hone : divUp n 1 = n := by simp [divUp, Nat.mod_one]
  have hlevel {level : ℕ} (h : level < (n :: upperSizes b n n).length) :
      (n :: upperSizes b n n).reverse.getD level 0 =
        divUp n (b ^ ((n :: upperSizes b n n).length - 1 - level)) := by
    have hsizes := @upperSizes_getD b 1 n hpos Nat.one_pos n
      ((n :: upperSizes b n n).length - 1 - level) (by rw [hone, List.length_cons]; omega)
    rw [hone, Nat.one_mul] at hsizes
    rw [← hsizes, List.getD_eq_getElem?_getD, List.getElem?_reverse h, List.getD_eq_getElem?_getD]
  have hlowest : lowestSize (n :: upperSizes b n n).reverse = n := by
    rw [lowestSize, List.length_reverse, hlevel (by simp), Nat.sub_self, Nat.pow_zero, hone]
  refine ⟨⟨hpos, by simp, ?_, ?_⟩, hlowest⟩
  · obtain ⟨last, hlast⟩ := Option.ne_none_iff_exists'.mp
      (fun hnone => upperSizes_ne_nil b n hn (List.getLast?_eq_none_iff.mp hnone))
    have hroot : (n :: upperSizes b n n).reverse.getD 0 0 = last := by
      rw [List.getD_eq_getElem?_getD, ← List.head?_eq_getElem?, List.head?_reverse,
        List.getLast?_cons_of_ne_nil (upperSizes_ne_nil b n hn), hlast, Option.getD_some]
    rw [hroot]
    exact upperSizes_last hb (Nat.le_succ n) hlast
  · intro level h c
    rw [List.length_reverse] at h
    rw [hlevel h, hlowest, levelWidth, List.length_reverse, ← Nat.not_le, ← Nat.not_le,
      divUp_le_iff (Nat.pow_pos hpos), Nat.mul_comm]

end Memoria.VleTree

import Mathlib.Order.Bounds.Basic
import Mathlib.Order.Lattice
import Mathlib.Algebra.Ring.Nat
import Mathlib.Tactic.SplitIfs
import Memoria.PackedTools

/-!
# How many elements fit into a block

The bisection keeps a number of elements that fits and, below `max_elements`, one that does not. The
steps of one from there on end with the greatest number that fits, unless there are too many.
-/

namespace Memoria.PackedTools

variable {size maxElements : ℕ → ℕ} {blockSize : ℕ}

abbrev Greatest (size : ℕ → ℕ) (blockSize n : ℕ) : Prop :=
  IsGreatest {items | size items ≤ blockSize} n

theorem Greatest.of_succ (hmono : Monotone size) {n : ℕ} (hfits : size n ≤ blockSize)
    (hnext : blockSize < size (n + 1)) : Greatest size blockSize n := by
  refine ⟨hfits, fun items hitems => ?_⟩
  by_contra hgt
  have hle : size (n + 1) ≤ size items := hmono (Nat.succ_le_of_lt (Nat.lt_of_not_le hgt))
  exact absurd (Nat.lt_of_lt_of_le hnext hle) (Nat.not_lt_of_le hitems)

/-- The loop goes on while the elements fit; it gives up where they fit in the last round. -/
theorem stepLoop_spec (hmono : Monotone size) {start : ℕ} (hops c maxSize : ℕ)
    (hbound : start + c + hops ≤ int32Bound)
    (hmax : maxSize + 1 = start + c ∧ size maxSize ≤ blockSize) :
    (stepLoop (.of size maxElements) blockSize start hops c maxSize = some (.error tooManySteps) ∧
        size (start + c + hops - 1) ≤ blockSize) ∨
      ∃ n, stepLoop (.of size maxElements) blockSize start hops c maxSize = some (.ok n) ∧
        Greatest size blockSize n := by
  induction hops generalizing c maxSize with
  | zero =>
      refine .inl ⟨rfl, ?_⟩
      rw [Nat.add_zero, ← hmax.1, Nat.add_sub_cancel]
      exact hmax.2
  | succ hops ih =>
      have hlt : start + c < int32Bound := by omega
      rw [stepLoop, if_pos hlt]
      by_cases hfits : size (start + c) ≤ blockSize
      · have hnext := ih (c + 1) (start + c) (by omega) ⟨rfl, hfits⟩
        have hlast : start + (c + 1) + hops - 1 = start + c + (hops + 1) - 1 := by omega
        rw [hlast] at hnext
        simpa only [SizeFn.of, if_pos hfits] using hnext
      · refine .inr ⟨maxSize, ?_, ?_⟩
        · simp only [SizeFn.of, if_neg hfits]
        · exact Greatest.of_succ hmono hmax.2 (hmax.1 ▸ Nat.lt_of_not_le hfits)

/-- From a number of elements that fits on. -/
theorem stepLoop_fits (hmono : Monotone size) {start : ℕ} (hops : ℕ)
    (hbound : start + (hops + 1) ≤ int32Bound) (hfits : size start ≤ blockSize) :
    (stepLoop (.of size maxElements) blockSize start (hops + 1) 0 start =
          some (.error tooManySteps) ∧ size (start + hops) ≤ blockSize) ∨
      ∃ n, stepLoop (.of size maxElements) blockSize start (hops + 1) 0 start = some (.ok n) ∧
        Greatest size blockSize n := by
  have hloop := @stepLoop_spec size maxElements blockSize hmono start hops 1 start
    (by omega) ⟨rfl, hfits⟩
  have hlast : start + 1 + hops - 1 = start + hops := by omega
  have hlt : start + 0 < int32Bound := by omega
  rw [hlast] at hloop
  rw [stepLoop, if_pos hlt]
  simpa only [SizeFn.of, Nat.add_zero, if_pos hfits] using hloop

def Outcome (size : ℕ → ℕ) (top blockSize : ℕ) (result : Option (Except String ℕ)) : Prop :=
  (result = some (.error tooManySteps) ∧ Far size top blockSize) ∨
    (result = some (.ok 0) ∧ blockSize < size 0) ∨
      ∃ n, result = some (.ok n) ∧ Greatest size blockSize n

/-- The loop behind the bisection. -/
theorem stepLoop_outcome (hmono : Monotone size) {first last top : ℕ} (hfirst : first ≤ top)
    (htop : top ≤ 2 ^ 30) (hend : last ≤ first + 1)
    (hlow : size first ≤ blockSize ∨ first = 0) (hhigh : blockSize < size last ∨ last = top) :
    Outcome size top blockSize
      (stepLoop (.of size maxElements) blockSize first 1024 0 first) := by
  have hbound : first + 1024 ≤ int32Bound := by
    rw [int32Bound]
    omega
  by_cases hfits : size first ≤ blockSize
  · refine (@stepLoop_fits size maxElements blockSize hmono _ 1023 hbound hfits).imp ?_ Or.inr
    rintro ⟨herror, hlast⟩
    refine ⟨herror, .inr ?_⟩
    have htoofar : last = top := by
      refine hhigh.resolve_left fun hlt => ?_
      have hle : size last ≤ size (first + 1023) := hmono (by omega)
      omega
    exact Nat.le_trans (hmono (by omega)) hlast
  · obtain rfl := hlow.resolve_left hfits
    have hlt : 0 + 0 < int32Bound := by
      rw [int32Bound]
      omega
    refine .inr (.inl ⟨?_, Nat.lt_of_not_le hfits⟩)
    rw [stepLoop, if_pos hlt]
    exact if_neg hfits

theorem bisect_outcome (hmono : Monotone size) {first last top : ℕ} (hfirst : first ≤ top)
    (hlast : last ≤ top) (htop : top ≤ 2 ^ 30)
    (hlow : size first ≤ blockSize ∨ first = 0) (hhigh : blockSize < size last ∨ last = top) :
    Outcome size top blockSize (bisect (.of size maxElements) blockSize first last) := by
  induction hlength : last - first using Nat.strong_induction_on generalizing first last with
  | _ length ih =>
      rw [bisect]
      by_cases hlt : first < last - 1
      · have hsum : first + last < int32Bound := by
          rw [int32Bound]
          omega
        have hmiddle : first < (first + last) / 2 ∧ (first + last) / 2 < last := by omega
        generalize (first + last) / 2 = middle at hmiddle
        rw [dif_pos hlt, if_pos hsum]
        dsimp only [SizeFn.of]
        by_cases hless : size middle < blockSize
        · rw [if_pos hless]
          exact ih _ (by omega) (by omega) hlast (.inl (Nat.le_of_lt hless)) hhigh rfl
        · rw [if_neg hless]
          by_cases hmore : size middle > blockSize
          · rw [if_pos hmore]
            exact ih _ (by omega) hfirst (by omega) hlow (.inl hmore) rfl
          · rw [if_neg hmore]
            have hsize : size middle = blockSize := by omega
            have hbound : middle + 256 ≤ int32Bound := by
              rw [int32Bound]
              omega
            refine (@stepLoop_fits size maxElements blockSize hmono _ 255 hbound
              (Nat.le_of_eq hsize)).imp ?_ Or.inr
            rintro ⟨herror, hstep⟩
            refine ⟨herror, .inl ⟨middle, by omega, fun c hc => ?_⟩⟩
            have hge : size middle ≤ size (middle + c) := hmono (Nat.le_add_right _ _)
            have hle : size (middle + c) ≤ size (middle + 255) := hmono (by omega)
            omega
      · rw [dif_neg hlt]
        exact stepLoop_outcome hmono hfirst htop (by omega) hlow hhigh

/-- The search ends with the greatest number of elements that fits, with 0 where not even a block
without elements fits, or gives up. -/
theorem findTotalElementsNumber2_outcome (hmono : Monotone size)
    (htop : maxElements blockSize ≤ 2 ^ 30) :
    Outcome size (maxElements blockSize) blockSize
      (findTotalElementsNumber2 (.of size maxElements) blockSize) :=
  bisect_outcome hmono (Nat.zero_le _) le_rfl htop (.inr rfl) (.inr rfl)

theorem findTotalElementsNumber2_outcome_words :
    Outcome (fun items => 8 * items) 64 64
      (findTotalElementsNumber2 (.of (fun items => 8 * items) fun blockSize => blockSize) 64) :=
  findTotalElementsNumber2_outcome (fun _ _ hle => Nat.mul_le_mul_left 8 hle) (by decide)

theorem stepLoop_eq_error {start : ℕ} (hops c maxSize : ℕ)
    (hbound : start + c + hops ≤ int32Bound)
    (hfits : ∀ items, items < start + c + hops → size items ≤ blockSize) :
    stepLoop (.of size maxElements) blockSize start hops c maxSize =
      some (.error tooManySteps) := by
  induction hops generalizing c maxSize with
  | zero => rfl
  | succ hops ih =>
      have hlt : start + c < int32Bound := by omega
      rw [stepLoop, if_pos hlt]
      dsimp only [SizeFn.of]
      rw [if_pos (hfits _ (by omega))]
      exact ih _ _ (by omega) fun items hitems => hfits items (by omega)

/-- Where 600 numbers of elements need just the whole block, the search gives up in their midst. -/
theorem findTotalElementsNumber2_gives_up :
    ¬ ∀ (size maxElements : ℕ → ℕ) (blockSize : ℕ), Monotone size →
      ∃ n, findTotalElementsNumber2 (.of size maxElements) blockSize = some (.ok n) ∧
        Greatest size blockSize n := by
  intro h
  have hmono : Monotone fun items => if items < 600 then 8 else 16 := by
    intro a b hab
    dsimp only
    split_ifs <;> omega
  have hfits : ∀ items, items < 256 + 0 + 256 → (if items < 600 then 8 else 16) ≤ 8 := by
    intro items hitems
    rw [if_pos (by omega)]
  obtain ⟨n, hfound, -⟩ := h (fun items => if items < 600 then 8 else 16) (fun _ => 512) 8 hmono
  rw [findTotalElementsNumber2, bisect, dif_pos (by decide), if_pos (by decide)] at hfound
  have hmiddle : (0 + SizeFn.maxElements (.of (fun items => if items < 600 then 8 else 16)
      fun _ => 512) 8) / 2 = 256 := rfl
  rw [hmiddle] at hfound
  dsimp only [SizeFn.of] at hfound
  rw [if_neg (by decide), if_neg (by decide)] at hfound
  have herror := @stepLoop_eq_error _ (fun _ => 512) _ 256 256 0 256 (by decide) hfits
  rw [SizeFn.of] at herror
  rw [herror] at hfound
  exact nomatch hfound

end Memoria.PackedTools

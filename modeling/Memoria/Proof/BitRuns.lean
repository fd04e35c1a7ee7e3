import Memoria.BitRuns
import Memoria.Proof.BitBuffer

/-!
# Runs of bits: what the counts are

A table gives the leading run of a group of eight bits, a longer run is the sum of the runs of its
pieces as long as each piece is whole. What the code counts is the run, except where a bound is not
looked at; the conditions say where.
-/

namespace Memoria.BitBuffer

open Lib

/-- The tables hold the runs at the ends of every byte. -/
theorem lut_tables : ∀ x < 256,
    kPopCountFW_LUT.getD x 0 = leading (fun i => x.testBit i == !false) 8 ∧
    kZeroCountFW_LUT.getD x 0 = leading (fun i => x.testBit i == !true) 8 ∧
    kPopCountBW_LUT.getD x 0 = leading (fun i => x.testBit (7 - i) == !false) 8 ∧
    kZeroCountBW_LUT.getD x 0 = leading (fun i => x.testBit (7 - i) == !true) 8 := by
  decide +kernel

theorem popCountFW_LUT_eq : ∀ x < 256,
    kPopCountFW_LUT.getD x 0 = leading (fun i => x.testBit i == !false) 8 :=
  fun x hx => (lut_tables x hx).1

theorem zeroCountFW_LUT_eq : ∀ x < 256,
    kZeroCountFW_LUT.getD x 0 = leading (fun i => x.testBit i == !true) 8 :=
  fun x hx => (lut_tables x hx).2.1

theorem popCountBW_LUT_eq : ∀ x < 256,
    kPopCountBW_LUT.getD x 0 = leading (fun i => x.testBit (7 - i) == !false) 8 :=
  fun x hx => (lut_tables x hx).2.2.1

theorem zeroCountBW_LUT_eq : ∀ x < 256,
    kZeroCountBW_LUT.getD x 0 = leading (fun i => x.testBit (7 - i) == !true) 8 :=
  fun x hx => (lut_tables x hx).2.2.2

variable {w : ℕ} {lut : List ℕ} {zero : Bool}

theorem testBit_getBits (hw : 0 < w) (buffer : Cells w) (idx : ℕ) {nbits : ℕ} (h : nbits ≤ w)
    (i : ℕ) :
    (getBits buffer idx nbits).toNat.testBit i = (decide (i < nbits) && bit buffer (idx + i)) :=
  getLsbD_getBits hw buffer h i

theorem getBits_lt (hw : 0 < w) (buffer : Cells w) (idx : ℕ) {nbits : ℕ} (h : nbits ≤ w) :
    (getBits buffer idx nbits).toNat < 2 ^ nbits := by
  apply Nat.lt_pow_two_of_testBit
  intro i hi
  rw [testBit_getBits hw buffer idx h, decide_eq_false (by omega), Bool.false_and]

theorem getLsbD_full (zero : Bool) {j : ℕ} (hj : j < w) :
    (if zero then 0 else BitVec.allOnes w).getLsbD j = !zero := by
  cases zero with
  | true => exact BitVec.getLsbD_zero
  | false => exact (BitVec.getLsbD_allOnes).trans (decide_eq_true hj)

section Full

variable (hw : 0 < w) {value : BitVec w} {b : Bool} (hvalue : ∀ j < w, value.getLsbD j = b)
  {buffer : Cells w} {c : ℕ}

include hw hvalue

/-- The bits of a cell that holds one value. -/
theorem bit_of_full (h : buffer c = value) {i : ℕ} (hi : i / w = c) : bit buffer i = b := by
  rw [bit, hi, h, hvalue _ (Nat.mod_lt i hw)]

theorem exists_bit_of_not_full (h : buffer c ≠ value) : ∃ i, i / w = c ∧ bit buffer i ≠ b := by
  by_contra hno
  apply h
  apply BitVec.eq_of_getLsbD_eq
  intro j hj
  rw [hvalue j hj, ← bit_cell buffer c hj]
  by_contra hne
  apply hno
  refine ⟨c * w + j, ?_, hne⟩
  rw [Nat.add_comm, Nat.add_mul_div_right _ _ hw, Nat.div_eq_of_lt hj, Nat.zero_add]

end Full

section Forward

variable (hw : 8 ≤ w)
  (hlut : ∀ x < 256, lut.getD x 0 = leading (fun i => x.testBit i == !zero) 8)
  (buffer : Cells w)

include hw hlut

theorem lut_group (c : ℕ) :
    lut.getD (getBits buffer c 8).toNat 0 =
      leading (fun i => bit buffer (c + i) == !zero) 8 := by
  rw [hlut _ (getBits_lt (by omega) buffer c hw)]
  apply leading_congr
  intro i hi
  rw [testBit_getBits (by omega) buffer c hw, decide_eq_true hi, Bool.true_and]

theorem countFwLoop_eq (n c cnt : ℕ) :
    countFwLoop buffer lut n c cnt =
      (cnt + leading (fun i => bit buffer (c + i) == !zero) (8 * n),
        decide (leading (fun i => bit buffer (c + i) == !zero) (8 * n) < 8 * n)) := by
  induction n generalizing c cnt with
  | zero => rfl
  | succ n ih =>
      have hle := leading_le (fun i => bit buffer (c + i) == !zero) 8
      have hshift : (fun i => bit buffer (c + (8 + i)) == !zero) =
          fun i => bit buffer (c + 8 + i) == !zero := by
        funext i
        rw [Nat.add_assoc]
      rw [countFwLoop, lut_group hw hlut, Nat.mul_succ, Nat.add_comm (8 * n), leading_add, hshift]
      split_ifs with hstop hfull hfull
      · omega
      · rw [decide_eq_true (by omega)]
      · rw [ih, hfull, Nat.add_assoc]
        congr 1
        rw [decide_eq_decide]
        omega
      · omega

/-- The last group, of fewer than eight bits. -/
theorem lut_rest (c : ℕ) {r : ℕ} (hr : r < 8) :
    lut.getD (if zero then (getBits buffer c r).toNat ||| 1 <<< r else (getBits buffer c r).toNat) 0 =
      leading (fun i => bit buffer (c + i) == !zero) r := by
  have hbits := fun i => testBit_getBits (by omega) buffer c (show r ≤ w by omega) i
  have htmp : ∀ i, (if zero then (getBits buffer c r).toNat ||| 1 <<< r
      else (getBits buffer c r).toNat).testBit i =
        ((decide (i < r) && bit buffer (c + i)) || (zero && decide (r = i))) := by
    intro i
    cases zero with
    | true =>
        rw [if_pos rfl, Nat.testBit_or, hbits, Nat.one_shiftLeft, Nat.testBit_two_pow,
          Bool.true_and]
    | false => rw [if_neg Bool.false_ne_true, hbits, Bool.false_and, Bool.or_false]
  rw [hlut]
  · rw [leading_of_stop hr]
    · apply leading_congr
      intro i hi
      rw [htmp, decide_eq_true hi, decide_eq_false (show ¬ r = i by omega), Bool.and_false,
        Bool.or_false, Bool.true_and]
    · rw [htmp, decide_eq_false (Nat.lt_irrefl r), decide_eq_true rfl, Bool.false_and,
        Bool.false_or, Bool.and_true]
      cases zero <;> rfl
  · apply Nat.lt_pow_two_of_testBit (n := 8)
    intro i hi
    rw [htmp, decide_eq_false (by omega), decide_eq_false (show ¬ r = i by omega), Bool.false_and,
      Bool.and_false, Bool.or_false]

theorem countFw0_eq {start limit : ℕ} (h : start ≤ limit) :
    countFw0 buffer start limit lut zero = Bitmap.runFw (bit buffer) (!zero) start limit := by
  have hsub : sub64 limit start = limit - start := if_pos h
  have hmod := Nat.mod_lt (limit - start) (show 0 < 8 by decide)
  have hdiv := Nat.mod_add_div (limit - start) 8
  have hsub' : sub64 limit ((limit - start) % 8) = limit - (limit - start) % 8 :=
    if_pos (by omega)
  have hrounds : (limit - (limit - start) % 8 - start + 7) / 8 = (limit - start) / 8 := by omega
  have hrest : limit - (limit - start) % 8 = start + 8 * ((limit - start) / 8) := by omega
  rw [countFw0]
  simp only [hsub, hsub', hrounds, countFwLoop_eq hw hlut, Bitmap.runFw]
  rw [hrest, lut_rest hw hlut buffer _ hmod]
  conv_rhs => rw [← hdiv, Nat.add_comm, leading_add]
  have hle := leading_le (fun i => bit buffer (start + i) == !zero) (8 * ((limit - start) / 8))
  simp only [decide_eq_true_eq, Nat.zero_add, ← Nat.add_assoc]
  split_ifs with hstop hfull hrem hfull hfull
  · omega
  · rfl
  · rw [hfull]
  · omega
  · rw [show (limit - start) % 8 = 0 by omega, hfull, leading, Nat.add_zero]
  · omega

end Forward

/-- Every cell that is passed has the bit everywhere. -/
theorem fullCellsFw_spec (hw : 0 < w) {value : BitVec w} {b : Bool}
    (hvalue : ∀ j < w, value.getLsbD j = b) (buffer : Cells w) (n cell cnt : ℕ) :
    ∃ k ≤ n, fullCellsFw buffer value n cell cnt = (cell + k, cnt + k * w) ∧
      ∀ i, cell * w ≤ i → i < (cell + k) * w → bit buffer i = b := by
  have hnone : ∀ n cell cnt, ∃ k ≤ n, (cell, cnt) = (cell + k, cnt + k * w) ∧
      ∀ i, cell * w ≤ i → i < (cell + k) * w → bit buffer i = b := by
    intro n cell cnt
    refine ⟨0, Nat.zero_le n, by simp, ?_⟩
    intro i hge hlt
    rw [Nat.add_zero] at hlt
    omega
  induction n generalizing cell cnt with
  | zero => exact hnone 0 cell cnt
  | succ n ih =>
      rw [fullCellsFw]
      split_ifs with hfull
      · obtain ⟨k, hk, heq, hall⟩ := ih (cell + 1) (cnt + w)
        refine ⟨k + 1, Nat.succ_le_succ hk, ?_, ?_⟩
        · rw [heq, Nat.add_one_mul, Nat.add_assoc, Nat.add_assoc, Nat.add_comm 1, Nat.add_comm w]
        · intro i hge hlt
          rcases Nat.lt_or_ge i ((cell + 1) * w) with hin | hout
          · apply bit_of_full hw hvalue hfull
            rw [div_eq_iff_mem hw, ← Nat.add_one_mul]
            exact ⟨hge, hin⟩
          · exact hall i hout (by rw [Nat.add_assoc, Nat.add_comm 1]; exact hlt)
      · exact hnone _ cell cnt

theorem runFw_split (bitmap : Bitmap) (b : Bool) {start mid limit : ℕ} (h1 : start ≤ mid)
    (h2 : mid ≤ limit) :
    bitmap.runFw b start limit =
      if bitmap.runFw b start mid = mid - start then mid - start + bitmap.runFw b mid limit
      else bitmap.runFw b start mid := by
  obtain ⟨m, rfl⟩ := Nat.exists_eq_add_of_le h1
  obtain ⟨n, rfl⟩ := Nat.exists_eq_add_of_le h2
  have hall : start + m + n - start = m + n := by omega
  rw [Bitmap.runFw, Bitmap.runFw, Bitmap.runFw, hall, leading_add, Nat.add_sub_cancel_left,
    Nat.add_sub_cancel_left]
  simp only [Nat.add_assoc]

theorem runFw_eq_self (bitmap : Bitmap) (b : Bool) {start limit : ℕ}
    (h : ∀ i, start ≤ i → i < limit → bitmap i = b) :
    bitmap.runFw b start limit = limit - start := by
  rw [Bitmap.runFw, leading_eq_self_iff]
  intro i hi
  rw [beq_iff_eq]
  exact h _ (Nat.le_add_right _ _) (by omega)

theorem countFw_eq (hw : 8 ≤ w)
    (hlut : ∀ x < 256, lut.getD x 0 = leading (fun i => x.testBit i == !zero) 8)
    (buffer : Cells w) {start limit : ℕ} (h : start ≤ limit) :
    countFw buffer start limit lut zero = Bitmap.runFw (bit buffer) (!zero) start limit := by
  have hpos : 0 < w := by omega
  have hin := Nat.mod_lt start hpos
  have hvalue := fun (j : ℕ) (hj : j < w) => getLsbD_full zero hj
  rw [countFw]
  dsimp only
  generalize (if zero = true then 0 else BitVec.allOnes w) = value at hvalue ⊢
  split_ifs with hone hhead
  · exact countFw0_eq hw hlut buffer h
  all_goals
    obtain ⟨hnext, hlast⟩ := rangeCells hpos (show start + (w - start % w) ≤ limit by omega)
    have hextent : start + w - start % w = (start / w + 1) * w := by omega
    have hstart : start ≤ (start / w + 1) * w := by omega
    have hlimit := Nat.div_mul_le_self limit w
    rw [hextent, countFw0_eq hw hlut buffer hstart] at hhead
    rw [hextent, countFw0_eq hw hlut buffer hstart]
    have hsplit := runFw_split (bit buffer) (!zero) hstart (show _ ≤ limit by omega)
  · obtain ⟨k, hk, hloop, hall⟩ := fullCellsFw_spec hpos hvalue buffer
      (limit / w - (start / w + 1)) (start / w + 1) ((start / w + 1) * w - start)
    have hkw := Nat.mul_le_mul_right w hk
    have hcell : (start / w + 1 + k) * w = (start / w + 1) * w + k * w := Nat.add_mul _ _ _
    have hmid : (start / w + 1) * w ≤ (start / w + 1 + k) * w := by omega
    have hend : (start / w + 1 + k) * w ≤ limit := by omega
    rw [Nat.mul_div_cancel _ hpos, hhead, hloop]
    dsimp only
    rw [countFw0_eq hw hlut buffer hend, hsplit, if_pos hhead, runFw_split _ _ hmid hend,
      if_pos (runFw_eq_self _ _ hall)]
    omega
  · rw [hsplit, if_neg hhead]

/-- Where the count is right for a bound below the start: nothing must be there to count. The
difference of the positions wraps, and its lowest bits are taken for the length of a last group. -/
def WrapsToZero (bitmap : Bitmap) (b : Bool) (start limit : ℕ) : Prop :=
  let remainder := sub64 limit start % 8
  remainder = 0 ∨ (remainder ≤ limit ∧ bitmap (limit - remainder) ≠ b) ∨
    (limit < remainder ∧ bitmap start ≠ b)

theorem countFw_eq_zero_iff (hw : 8 ≤ w)
    (hlut : ∀ x < 256, lut.getD x 0 = leading (fun i => x.testBit i == !zero) 8)
    (buffer : Cells w) {start limit : ℕ} (h : limit < start) :
    countFw buffer start limit lut zero = 0 ↔ WrapsToZero (bit buffer) (!zero) start limit := by
  have hin := Nat.mod_lt start (show 0 < w by omega)
  have hmod := Nat.mod_lt (sub64 limit start) (show 0 < 8 by decide)
  have hsub : sub64 limit start = 2 ^ 64 + limit - start := if_neg (by omega)
  rw [countFw]
  dsimp only
  rw [if_pos (by omega), countFw0, WrapsToZero]
  simp only [countFwLoop_eq hw hlut]
  rw [lut_rest hw hlut buffer _ hmod]
  generalize hr : sub64 limit start % 8 = r at *
  rcases Nat.eq_zero_or_pos r with rfl | hrpos
  · have hzero : sub64 limit 0 = limit := if_pos (Nat.zero_le limit)
    have hrounds : (limit - start + 7) / 8 = 0 := by omega
    simp [hzero, hrounds, leading]
  by_cases hle : r ≤ limit
  · have hsub' : sub64 limit r = limit - r := if_pos hle
    have hrounds : (limit - r - start + 7) / 8 = 0 := by omega
    have hstop := leading_eq_zero_iff (p := fun i => bit buffer (limit - r + i) == !zero) hrpos
    rw [hsub', hrounds]
    simp only [Nat.mul_zero, leading, Nat.lt_irrefl, decide_false, Bool.false_eq_true, if_false,
      Nat.zero_add, if_pos hrpos, hstop, Nat.add_zero, beq_eq_false_iff_ne]
    constructor
    · intro hne
      exact .inr (.inl ⟨hle, hne⟩)
    · rintro (hz | ⟨-, hne⟩ | ⟨hlt, -⟩)
      · omega
      · exact hne
      · omega
  · have hsub' : sub64 limit r = 2 ^ 64 + limit - r := if_neg hle
    have hwraps : (r = 0 ∨ r ≤ limit ∧ bit buffer (limit - r) ≠ !zero ∨
        limit < r ∧ bit buffer start ≠ !zero) ↔ bit buffer start ≠ !zero := by
      constructor
      · rintro (hz | ⟨hle', -⟩ | ⟨-, hne⟩)
        · omega
        · exact absurd hle' hle
        · exact hne
      · intro hne
        exact .inr (.inr ⟨Nat.lt_of_not_le hle, hne⟩)
    rw [hwraps, hsub']
    rcases Nat.eq_zero_or_pos ((2 ^ 64 + limit - r - start + 7) / 8) with hn | hn
    · -- The difference is the last group alone, and it starts at `start`.
      have hstart : 2 ^ 64 + limit - r = start := by omega
      have hstop := leading_eq_zero_iff (p := fun i => bit buffer (start + i) == !zero) hrpos
      rw [hn, hstart]
      simp only [Nat.mul_zero, leading, Nat.lt_irrefl, decide_false, Bool.false_eq_true, if_false,
        Nat.zero_add, if_pos hrpos, hstop, Nat.add_zero, beq_eq_false_iff_ne]
    · generalize (2 ^ 64 + limit - r - start + 7) / 8 = n at *
      have hstop := leading_eq_zero_iff (p := fun i => bit buffer (start + i) == !zero)
        (show 0 < 8 * n by omega)
      rw [Nat.add_zero, beq_eq_false_iff_ne] at hstop
      rw [← hstop, Nat.zero_add, if_pos hrpos]
      split_ifs with hreturned
      · rfl
      · rw [decide_eq_true_eq] at hreturned
        omega

section Backward

variable (hw : 8 ≤ w)
  (hlut : ∀ x < 256, lut.getD x 0 = leading (fun i => x.testBit (7 - i) == !zero) 8)
  (buffer : Cells w)

include hw hlut

theorem lut_group_bw {c : ℕ} (hc : 7 ≤ c) :
    lut.getD (getBits buffer (c - 7) 8).toNat 0 =
      leading (fun i => bit buffer (c - i) == !zero) 8 := by
  rw [hlut _ (getBits_lt (by omega) buffer (c - 7) hw)]
  apply leading_congr
  intro i hi
  rw [testBit_getBits (by omega) buffer (c - 7) hw, decide_eq_true (by omega), Bool.true_and,
    show c - 7 + (7 - i) = c - i by omega]

theorem countBwLoop_eq (n c cnt : ℕ) (hn : 8 * n ≤ c + 1) :
    countBwLoop buffer lut n c cnt =
      (cnt + leading (fun i => bit buffer (c - i) == !zero) (8 * n),
        decide (leading (fun i => bit buffer (c - i) == !zero) (8 * n) < 8 * n)) := by
  induction n generalizing c cnt with
  | zero => rfl
  | succ n ih =>
      have hle := leading_le (fun i => bit buffer (c - i) == !zero) 8
      have hshift : (fun i => bit buffer (c - (8 + i)) == !zero) =
          fun i => bit buffer (c - 8 - i) == !zero := by
        funext i
        rw [Nat.sub_sub]
      rw [countBwLoop, lut_group_bw hw hlut buffer (by omega), Nat.mul_succ, Nat.add_comm (8 * n),
        leading_add, hshift]
      split_ifs with hstop hfull hfull
      · omega
      · rw [decide_eq_true (by omega)]
      · rw [ih _ _ (by omega), hfull, Nat.add_assoc]
        congr 1
        rw [decide_eq_decide]
        omega
      · omega

/-- The last group is looked up in the highest bits of its byte. -/
theorem lut_rest_bw (c : ℕ) {r : ℕ} (hr : r < 8) (hrpos : 0 < r) :
    lut.getD (if zero then ((getBits buffer c r).toNat <<< 1 ||| 1) <<< (7 - r)
        else (getBits buffer c r).toNat <<< (8 - r)) 0 =
      leading (fun i => bit buffer (c + r - 1 - i) == !zero) r := by
  have hbits := fun i => testBit_getBits (by omega) buffer c (show r ≤ w by omega) i
  have htmp : ∀ k, (if zero then ((getBits buffer c r).toNat <<< 1 ||| 1) <<< (7 - r)
      else (getBits buffer c r).toNat <<< (8 - r)).testBit k =
        ((decide (8 - r ≤ k) && (decide (k - (8 - r) < r) && bit buffer (c + (k - (8 - r))))) ||
          (zero && decide (k = 7 - r))) := by
    intro k
    cases zero with
    | true =>
        rw [if_pos rfl, Nat.testBit_shiftLeft, Nat.testBit_or, Nat.testBit_shiftLeft, hbits,
          Bool.eq_iff_iff]
        simp only [Bool.and_eq_true, Bool.or_eq_true, decide_eq_true_eq,
          Nat.testBit_one_eq_true_iff_self_eq_zero, true_and]
        constructor
        · rintro ⟨hk, ⟨hk', hlt, hbit⟩ | hk'⟩
          · rw [show k - (7 - r) - 1 = k - (8 - r) by omega] at hlt hbit
            exact .inl ⟨by omega, hlt, hbit⟩
          · exact .inr (by omega)
        · rintro (⟨hk, hlt, hbit⟩ | hk)
          · rw [show k - (8 - r) = k - (7 - r) - 1 by omega] at hlt hbit
            exact ⟨by omega, .inl ⟨by omega, hlt, hbit⟩⟩
          · exact ⟨by omega, .inr (by omega)⟩
    | false =>
        rw [if_neg Bool.false_ne_true, Nat.testBit_shiftLeft, hbits, Bool.false_and, Bool.or_false]
  rw [hlut]
  · rw [leading_of_stop hr]
    · apply leading_congr
      intro i hi
      rw [htmp, decide_eq_true (by omega), decide_eq_true (by omega),
        decide_eq_false (show ¬ 7 - i = 7 - r by omega), Bool.and_false, Bool.or_false,
        Bool.true_and, Bool.true_and, show c + (7 - i - (8 - r)) = c + r - 1 - i by omega]
    · rw [htmp, decide_eq_false (by omega), decide_eq_true rfl, Bool.false_and,
        Bool.false_or, Bool.and_true]
      cases zero <;> rfl
  · apply Nat.lt_pow_two_of_testBit (n := 8)
    intro k hk
    rw [htmp, decide_eq_false (show ¬ k - (8 - r) < r by omega),
      decide_eq_false (show ¬ k = 7 - r by omega), Bool.false_and, Bool.and_false, Bool.and_false,
      Bool.or_false]

theorem countBw0_eq {start limit : ℕ} :
    countBw0 buffer start limit lut zero = Bitmap.runBw (bit buffer) (!zero) start limit := by
  rw [countBw0, Bitmap.runBw]
  by_cases h : start > limit
  · have hmod := Nat.mod_lt (start - limit) (show 0 < 8 by decide)
    have hdiv := Nat.mod_add_div (start - limit) 8
    have hrounds : (start - 1 - (limit + (start - limit) % 8) + 7) / 8 = (start - limit) / 8 := by
      omega
    rw [if_pos h]
    dsimp only
    rw [hrounds, countBwLoop_eq hw hlut buffer _ _ _ (by omega)]
    conv_rhs => rw [← hdiv, Nat.add_comm, leading_add]
    have hle := leading_le (fun i => bit buffer (start - 1 - i) == !zero) (8 * ((start - limit) / 8))
    have hrest : (fun i => bit buffer (start - 1 - (8 * ((start - limit) / 8) + i)) == !zero) =
        fun i => bit buffer (limit + (start - limit) % 8 - 1 - i) == !zero := by
      funext i
      rw [show start - 1 - (8 * ((start - limit) / 8) + i) =
        limit + (start - limit) % 8 - 1 - i by omega]
    rw [hrest]
    rcases Nat.eq_zero_or_pos ((start - limit) % 8) with hrem | hrem
    · simp only [hrem, leading, decide_eq_true_eq, Nat.zero_add, Nat.lt_irrefl, if_false,
        Nat.add_zero, gt_iff_lt]
      split_ifs with hstop hfull hfull
      · exact hfull
      · rfl
      · exact hfull
      · rfl
    · rw [lut_rest_bw hw hlut buffer limit hmod hrem]
      simp only [decide_eq_true_eq, Nat.zero_add, if_pos hrem, gt_iff_lt]
      split_ifs with hstop hfull hfull
      · omega
      · rfl
      · rw [hfull]
      · omega
  · rw [if_neg h, show start - limit = 0 by omega, leading]

end Backward

/-- The loop goes down from the last of the `n` cells from `lo` on. -/
theorem fullCellsBw_spec (hw : 0 < w) {value : BitVec w} {b : Bool}
    (hvalue : ∀ j < w, value.getLsbD j = b) (buffer : Cells w) (lo n cnt : ℕ) :
    (fullCellsBw buffer value n (lo + n - 1) cnt = (none, cnt + n * w) ∧
      ∀ i, lo * w ≤ i → i < (lo + n) * w → bit buffer i = b) ∨
    ∃ cell, lo ≤ cell ∧ cell < lo + n ∧
      fullCellsBw buffer value n (lo + n - 1) cnt =
        (some cell, cnt + ((lo + n) * w - (cell + 1) * w)) ∧
      (∀ i, (cell + 1) * w ≤ i → i < (lo + n) * w → bit buffer i = b) ∧
      ∃ i, i / w = cell ∧ bit buffer i ≠ b := by
  induction n generalizing cnt with
  | zero =>
      refine .inl ⟨by simp [fullCellsBw], ?_⟩
      intro i hge hlt
      rw [Nat.add_zero] at hlt
      omega
  | succ n ih =>
      have hnext : (lo + (n + 1)) * w = (lo + n) * w + w := by
        rw [← Nat.add_assoc, Nat.add_one_mul]
      have hcell : lo + (n + 1) - 1 = lo + n := rfl
      rw [hcell, fullCellsBw]
      split_ifs with hfull
      · have hlast : ∀ i, (lo + n) * w ≤ i → i < (lo + (n + 1)) * w → bit buffer i = b := by
          intro i hge hlt
          apply bit_of_full hw hvalue hfull
          rw [div_eq_iff_mem hw, ← hnext]
          exact ⟨hge, hlt⟩
        rcases ih (cnt + w) with ⟨heq, hall⟩ | ⟨cell, hlo, hhi, heq, hall, hstop⟩
        · refine .inl ⟨by rw [heq, Nat.add_one_mul, Nat.add_assoc, Nat.add_comm w], ?_⟩
          intro i hge hlt
          rcases Nat.lt_or_ge i ((lo + n) * w) with hin | hout
          · exact hall i hge hin
          · exact hlast i hout hlt
        · have hmul := Nat.mul_le_mul_right w (show cell + 1 ≤ lo + n by omega)
          refine .inr ⟨cell, hlo, by omega, ?_, ?_, hstop⟩
          · rw [heq, hnext]
            congr 1
            omega
          · intro i hge hlt
            rcases Nat.lt_or_ge i ((lo + n) * w) with hin | hout
            · exact hall i hge hin
            · exact hlast i hout hlt
      · refine .inr ⟨lo + n, Nat.le_add_right _ _, by omega, ?_, ?_,
          exists_bit_of_not_full hw hvalue hfull⟩
        · rw [← Nat.add_assoc, Nat.sub_self, Nat.add_zero]
        · intro i hge hlt
          rw [← Nat.add_assoc] at hlt
          omega

theorem runBw_split (bitmap : Bitmap) (b : Bool) {start mid limit : ℕ} (h1 : limit ≤ mid)
    (h2 : mid ≤ start) :
    bitmap.runBw b start limit =
      if bitmap.runBw b start mid = start - mid then start - mid + bitmap.runBw b mid limit
      else bitmap.runBw b start mid := by
  have hsum : start - limit = start - mid + (mid - limit) := by omega
  have hshift : (fun i => bitmap (start - 1 - (start - mid + i)) == b) =
      fun i => bitmap (mid - 1 - i) == b := by
    funext i
    rw [show start - 1 - (start - mid + i) = mid - 1 - i by omega]
  rw [Bitmap.runBw, hsum, leading_add, hshift]
  rfl

theorem runBw_eq_self_iff (bitmap : Bitmap) (b : Bool) {start limit : ℕ} :
    bitmap.runBw b start limit = start - limit ↔ ∀ i, limit ≤ i → i < start → bitmap i = b := by
  rw [Bitmap.runBw, leading_eq_self_iff]
  simp only [beq_iff_eq]
  constructor
  · intro h i hge hlt
    have hi := h (start - 1 - i) (by omega)
    rwa [show start - 1 - (start - 1 - i) = i by omega] at hi
  · intro h i hi
    exact h _ (by omega) (by omega)

/-- Where the count goes below the bound: the run fills the cells down to the start of the cell of
the bound, which is not where the bound is. -/
def Overruns (w : ℕ) (bitmap : Bitmap) (b : Bool) (start limit : ℕ) : Prop :=
  limit % w ≠ 0 ∧ limit < start - start % w ∧
    ∀ i, limit / w * w ≤ i → i < start → bitmap i = b

theorem countBw_eq_iff (hw : 8 ≤ w)
    (hlut : ∀ x < 256, lut.getD x 0 = leading (fun i => x.testBit (7 - i) == !zero) 8)
    (buffer : Cells w) (start limit : ℕ) :
    countBw buffer start limit lut zero = Bitmap.runBw (bit buffer) (!zero) start limit ↔
      ¬ Overruns w (bit buffer) (!zero) start limit := by
  have hpos : 0 < w := by omega
  have hvalue := fun (j : ℕ) (hj : j < w) => getLsbD_full zero hj
  have hstart := Nat.div_add_mod' start w
  have hlimit := Nat.div_add_mod' limit w
  have hin := Nat.mod_lt limit hpos
  rw [countBw]
  dsimp only
  generalize (if zero = true then 0 else BitVec.allOnes w) = value at hvalue ⊢
  split_ifs with hone hhead
  · rw [countBw0_eq hw hlut]
    refine iff_of_true rfl ?_
    rintro ⟨-, hlt, -⟩
    omega
  all_goals
    rw [countBw0_eq hw hlut] at hhead
    have hsplit := runBw_split (bit buffer) (!zero) (show limit ≤ start - start % w by omega)
      (Nat.sub_le start (start % w))
  · have hextent : start - start % w = start / w * w := by omega
    have hlohi : limit / w < start / w := by
      rw [Nat.div_lt_iff_lt_mul hpos]
      omega
    rw [hextent] at hhead hsplit hone
    rw [countBw0_eq hw hlut, hextent, hhead, Nat.mul_div_cancel _ hpos]
    rw [if_pos hhead] at hsplit
    unfold Overruns
    rw [hextent]
    generalize limit / w = lo at *
    obtain ⟨n, hn⟩ := Nat.exists_eq_add_of_lt hlohi
    rw [Nat.add_assoc] at hn
    generalize start / w = hi at *
    subst hn
    have hrounds : lo + (n + 1) - 1 + 1 - lo = n + 1 := by omega
    rw [hrounds]
    rcases fullCellsBw_spec hpos hvalue buffer lo (n + 1) (start - (lo + (n + 1)) * w) with
      ⟨heq, hall⟩ | ⟨cell, hlo, hhi, heq, hall, i, hi, hstop⟩
    · have hrun : Bitmap.runBw (bit buffer) (!zero) ((lo + (n + 1)) * w) limit =
          (lo + (n + 1)) * w - limit := by
        rw [runBw_eq_self_iff]
        intro i hge hlt
        exact hall i (by omega) hlt
      have hcells : (lo + (n + 1)) * w = lo * w + (n + 1) * w := Nat.add_mul _ _ _
      rw [heq, hsplit, hrun]
      dsimp only
      constructor
      · rintro hcount ⟨hmod, -, -⟩
        omega
      · intro hnot
        have hmod : limit % w = 0 := by
          by_contra hmod
          refine hnot ⟨hmod, by omega, ?_⟩
          intro i hge hlt
          rcases Nat.lt_or_ge i ((lo + (n + 1)) * w) with hbelow | habove
          · exact hall i hge hbelow
          · exact (runBw_eq_self_iff _ _).mp hhead i habove hlt
        omega
    · have hmul := Nat.mul_le_mul_right w (show cell + 1 ≤ lo + (n + 1) by omega)
      have hmul' := Nat.mul_le_mul_right w hlo
      rw [div_eq_iff_mem hpos, ← Nat.add_one_mul] at hi
      have hcell : limit < (cell + 1) * w := by
        rw [Nat.add_one_mul] at hi ⊢
        omega
      rw [heq, hsplit, runBw_split _ _ (Nat.le_of_lt hcell) hmul,
        if_pos ((runBw_eq_self_iff _ _).mpr hall)]
      dsimp only
      rw [countBw0_eq hw hlut]
      refine iff_of_true (by omega) ?_
      rintro ⟨-, -, hrun⟩
      exact hstop (hrun i (by omega) (by omega))
  · rw [countBw0_eq hw hlut, hsplit, if_neg hhead]
    refine iff_of_true rfl ?_
    rintro ⟨-, -, hall⟩
    apply hhead
    rw [runBw_eq_self_iff]
    intro i hge hlt
    exact hall i (by omega) hlt

/-- Forward the count is the run, up to a bound that is not below the start. Backward it is the run
unless the run fills whole cells beyond the bound. -/
theorem count_eq_run_iff (hw : 8 ≤ w) (buffer : Cells w) (b : Bool) (start limit : ℕ) :
    (countBitFw b buffer start limit = Bitmap.runFw (bit buffer) b start limit ↔
      start ≤ limit ∨ WrapsToZero (bit buffer) b start limit) ∧
    (countBitBw b buffer start limit = Bitmap.runBw (bit buffer) b start limit ↔
      ¬ Overruns w (bit buffer) b start limit) := by
  have hfw : ∀ {lut : List ℕ} {zero : Bool},
      (∀ x < 256, lut.getD x 0 = leading (fun i => x.testBit i == !zero) 8) →
      (countFw buffer start limit lut zero = Bitmap.runFw (bit buffer) (!zero) start limit ↔
        start ≤ limit ∨ WrapsToZero (bit buffer) (!zero) start limit) := by
    intro lut zero hlut
    rcases Nat.lt_or_ge limit start with hlt | hle
    · have hrun : Bitmap.runFw (bit buffer) (!zero) start limit = 0 := by
        rw [Bitmap.runFw, Nat.sub_eq_zero_of_le (Nat.le_of_lt hlt), leading]
      rw [hrun, countFw_eq_zero_iff hw hlut buffer hlt]
      exact (or_iff_right (Nat.not_le_of_lt hlt)).symm
    · exact iff_of_true (countFw_eq hw hlut buffer hle) (.inl hle)
  cases b with
  | true =>
      exact ⟨hfw popCountFW_LUT_eq, countBw_eq_iff hw popCountBW_LUT_eq buffer start limit⟩
  | false =>
      exact ⟨hfw zeroCountFW_LUT_eq, countBw_eq_iff hw zeroCountBW_LUT_eq buffer start limit⟩

theorem count_eq_run_iff_bytes :
    countBitFw true (fun _ => 0xFB#8) 3 20 = Bitmap.runFw (bit (fun _ => 0xFB#8)) true 3 20 :=
  (count_eq_run_iff (by decide) (fun _ => 0xFB#8) true 3 20).1.mpr (.inl (by decide))

/-- Two words of ones, counted back from their end to position 3. -/
theorem countOneBw_overruns :
    ¬ ∀ (buffer : Cells 64) (b : Bool) (start limit : ℕ),
      countBitFw b buffer start limit = Bitmap.runFw (bit buffer) b start limit ∧
        countBitBw b buffer start limit = Bitmap.runBw (bit buffer) b start limit := by
  intro h
  have hbw := (h (fun _ => BitVec.allOnes 64) true 128 3).2
  revert hbw
  decide +kernel

theorem runFw_eq_iff (bitmap : Bitmap) (b : Bool) {start limit n : ℕ} :
    bitmap.runFw b start limit = n ↔
      n ≤ limit - start ∧ (∀ i, start ≤ i → i < start + n → bitmap i = b) ∧
        (n < limit - start → bitmap (start + n) ≠ b) := by
  rw [Bitmap.runFw, leading_eq_iff]
  simp only [beq_iff_eq, beq_eq_false_iff_ne]
  constructor
  · rintro ⟨hle, hall, hstop⟩
    refine ⟨hle, ?_, hstop⟩
    intro i hge hlt
    have hi := hall (i - start) (by omega)
    rwa [Nat.add_sub_cancel' hge] at hi
  · rintro ⟨hle, hall, hstop⟩
    exact ⟨hle, fun i hi => hall _ (Nat.le_add_right _ _) (by omega), hstop⟩

/-- What is left of a cell above `pre`. -/
theorem cell_zero_iff (buf : Cells w) (c pre : ℕ) :
    buf c >>> pre = 0 ↔ ∀ i, c * w + pre ≤ i → i < (c + 1) * w → bit buf i = false := by
  rw [Nat.add_one_mul]
  constructor
  · intro h i hge hlt
    obtain ⟨d, rfl⟩ := Nat.exists_eq_add_of_le hge
    rw [Nat.add_assoc, bit_cell buf c (by omega), ← BitVec.getLsbD_ushiftRight, h]
    exact BitVec.getLsbD_zero
  · intro h
    apply BitVec.eq_of_getLsbD_eq
    intro j hj
    rw [show (0 : BitVec w) = 0#w from rfl, BitVec.getLsbD_zero, BitVec.getLsbD_ushiftRight]
    rcases Nat.lt_or_ge (pre + j) w with hin | hout
    · rw [← bit_cell buf c hin]
      exact h _ (by omega) (by omega)
    · exact BitVec.getLsbD_of_ge _ _ hout

theorem cell_ctz (buf : Cells w) (c : ℕ) {pre : ℕ} (h : buf c >>> pre ≠ 0) :
    (buf c >>> pre).ctz.toNat < w - pre ∧
      Bitmap.runFw (bit buf) false (c * w + pre) ((c + 1) * w) = (buf c >>> pre).ctz.toNat := by
  have hset := BitVec.getLsbD_true_ctz_of_ne_zero h
  have hclear := fun {i : ℕ} => BitVec.getLsbD_false_of_lt_ctz (x := buf c >>> pre) (i := i)
  rw [BitVec.getLsbD_ushiftRight] at hset
  have hlt := BitVec.lt_of_getLsbD hset
  refine ⟨by omega, ?_⟩
  rw [runFw_eq_iff, Nat.add_one_mul]
  refine ⟨by omega, ?_, ?_⟩
  · intro i hge hi
    obtain ⟨d, rfl⟩ := Nat.exists_eq_add_of_le hge
    rw [Nat.add_assoc, bit_cell buf c (by omega), ← BitVec.getLsbD_ushiftRight]
    exact hclear (by omega)
  · intro _
    rw [Nat.add_assoc, bit_cell buf c hlt, hset]
    exact Bool.noConfusion

theorem trailingLoop_spec (buf : Cells w) (n c : ℕ) {pre : ℕ} (hpre : pre < w) (length : ℕ) :
    let run := Bitmap.runFw (bit buf) false (c * w + pre) ((c + n) * w)
    ∃ p, trailingLoop buf n c pre length =
        (p, length + run, decide (run < (c + n) * w - (c * w + pre))) ∧
      (run = (c + n) * w - (c * w + pre) → p = if n = 0 then pre else 0) := by
  intro run
  induction n generalizing c pre length with
  | zero =>
      have hrun : run = 0 := by
        change Lib.leading _ _ = 0
        rw [Nat.add_zero, Nat.sub_add_eq, Nat.sub_self, Nat.zero_sub, leading]
      refine ⟨pre, ?_, fun _ => (if_pos rfl).symm⟩
      rw [trailingLoop, hrun, decide_eq_false (by rw [Nat.add_zero]; omega), Nat.add_zero]
  | succ n ih =>
      have hcell : c * w + pre ≤ (c + 1) * w := by
        rw [Nat.add_one_mul]
        omega
      have hend : (c + 1) * w ≤ (c + (n + 1)) * w := Nat.mul_le_mul_right w (by omega)
      have hsplit := runFw_split (bit buf) false hcell hend
      have hone := Nat.add_one_mul c w
      change run = _ at hsplit
      rw [trailingLoop]
      by_cases hval : buf c >>> pre = 0
      · have hzero := (cell_zero_iff buf c pre).mp hval
        obtain ⟨p, heq, hp⟩ := ih (c + 1) (Nat.zero_lt_of_lt hpre) (length + (w - pre))
        rw [runFw_eq_self _ _ hzero, if_pos rfl] at hsplit
        rw [show c + 1 + n = c + (n + 1) by omega] at heq hp
        simp only [Nat.add_zero] at heq hp
        have hsum : w - pre +
            Bitmap.runFw (bit buf) false ((c + 1) * w) ((c + (n + 1)) * w) = run := by
          omega
        refine ⟨p, ?_, ?_⟩
        · rw [if_neg (not_not.mpr hval), heq, Nat.add_assoc, hsum, Prod.mk.injEq, Prod.mk.injEq,
            decide_eq_decide]
          exact ⟨rfl, rfl, by omega⟩
        · intro hrun
          rw [if_neg (Nat.succ_ne_zero n), hp (by omega), ite_self]
      · obtain ⟨hlt, hctz⟩ := cell_ctz buf c hval
        rw [hctz, if_neg (by omega)] at hsplit
        refine ⟨pre, ?_, ?_⟩
        · rw [if_pos hval, hsplit, decide_eq_true (by omega)]
        · intro hrun
          omega

/-- Where the scan stops right: it does not look at the limit within its last cell. The cells of the
limit and of `pos` may be one. -/
def StopsAtLimit (w : ℕ) (bitmap : Bitmap) (pos limit : ℕ) : Prop :=
  limit % w = 0 ∨ (∃ i, pos ≤ i ∧ i ≤ limit ∧ bitmap i = true) ∨
    ((∀ i, limit ≤ i → i / w = limit / w → bitmap i = false) ∧
      (pos / w < limit / w ∨ pos % w = 0))

/-- The last cell, from `p` bits up. -/
theorem lastCell_eq_iff (hw : 0 < w) (buf : Cells w) {p limit : ℕ}
    (hp : limit / w * w + p ≤ limit) (hsuffix : 0 < limit % w) :
    (if buf (limit / w) >>> p ≠ 0 then (buf (limit / w) >>> p).ctz.toNat else limit % w) =
        Bitmap.runFw (bit buf) false (limit / w * w + p) limit ↔
      (∃ i, limit / w * w + p ≤ i ∧ i ≤ limit ∧ bit buf i = true) ∨
        ((∀ i, limit ≤ i → i / w = limit / w → bit buf i = false) ∧ p = 0) := by
  have hlimit := Nat.div_add_mod' limit w
  have hin := Nat.mod_lt limit hw
  have hnext := Nat.add_one_mul (limit / w) w
  have hrest : ∀ i, limit ≤ i → i / w = limit / w → i < (limit / w + 1) * w := by
    intro i _ hi
    rw [hnext]
    exact ((div_eq_iff_mem hw).mp hi).2
  obtain ⟨hle, hall, hstop⟩ :=
    (@runFw_eq_iff (bit buf) false (limit / w * w + p) limit _).mp rfl
  generalize hrun : Bitmap.runFw (bit buf) false (limit / w * w + p) limit = run at *
  by_cases hval : buf (limit / w) >>> p = 0
  · have hzero := (cell_zero_iff buf (limit / w) p).mp hval
    have hwhole : run = limit - (limit / w * w + p) := by
      rw [← hrun]
      apply runFw_eq_self
      intro i hge hlt
      exact hzero i hge (by omega)
    rw [if_neg (not_not.mpr hval)]
    constructor
    · intro h
      exact .inr ⟨fun i hge hi => hzero i (by omega) (hrest i hge hi), by omega⟩
    · rintro (⟨i, hge, hlt, hbit⟩ | ⟨-, rfl⟩)
      · rw [hzero i hge (by omega)] at hbit
        cases hbit
      · omega
  · obtain ⟨hlt, hctz⟩ := cell_ctz buf (limit / w) hval
    have hsplit := runFw_split (bit buf) false hp (show limit ≤ (limit / w + 1) * w by omega)
    rw [if_pos hval]
    rw [hctz, hrun] at hsplit
    rcases Nat.lt_or_ge run (limit - (limit / w * w + p)) with hinside | hwhole
    · rw [if_neg (by omega)] at hsplit
      exact iff_of_true hsplit (.inl ⟨_, Nat.le_add_right _ _, by omega,
        Bool.eq_true_of_not_eq_false (hstop hinside)⟩)
    · rw [if_pos (by omega)] at hsplit
      have hzero : Bitmap.runFw (bit buf) false limit ((limit / w + 1) * w) = 0 ↔
          bit buf limit = true := by
        rw [Bitmap.runFw, leading_eq_zero_iff (by omega), beq_eq_false_iff_ne]
        exact Bool.ne_false_iff
      constructor
      · intro h
        exact .inl ⟨limit, hp, Nat.le_refl limit, hzero.mp (by omega)⟩
      · rintro (⟨i, hge, hle', hbit⟩ | ⟨hclear, -⟩)
        · rcases Nat.lt_or_ge i limit with hlt' | hge'
          · rw [hall i hge (by omega)] at hbit
            cases hbit
          · have hi : i = limit := by omega
            rw [hi] at hbit
            have := hzero.mpr hbit
            omega
        · refine absurd ((cell_zero_iff buf (limit / w) p).mpr ?_) hval
          intro i hge hlt'
          rcases Nat.lt_or_ge i limit with hbelow | habove
          · exact hall i hge (by omega)
          · exact hclear i habove ((div_eq_iff_mem hw).mpr (by omega))

/-- The scan ends at a one before the last cell, or in the last cell, where it starts `p` bits up. -/
theorem countTrailingZeroes_cases (hw : 0 < w) (buf : Cells w) {pos limit : ℕ} (h : pos ≤ limit) :
    (bit buf (pos + Bitmap.runFw (bit buf) false pos limit) = true ∧
      pos + Bitmap.runFw (bit buf) false pos limit < limit ∧
      countTrailingZeroes buf pos limit = Bitmap.runFw (bit buf) false pos limit) ∨
    ∃ p, pos ≤ limit / w * w + p ∧ limit / w * w + p ≤ limit ∧
      (p = 0 ↔ pos / w < limit / w ∨ pos % w = 0) ∧
      (∀ i, pos ≤ i → i < limit / w * w + p → bit buf i = false) ∧
      countTrailingZeroes buf pos limit = limit / w * w + p - pos + if limit % w > 0 then
        if buf (limit / w) >>> p ≠ 0 then (buf (limit / w) >>> p).ctz.toNat else limit % w else 0 := by
  have hpos := Nat.div_add_mod' pos w
  have hlimit := Nat.div_add_mod' limit w
  have hin := Nat.mod_lt pos hw
  have hin' := Nat.mod_lt limit hw
  have hcells : pos / w ≤ limit / w := Nat.div_le_div_right h
  obtain ⟨p, hloop, hp⟩ := trailingLoop_spec buf (limit / w - pos / w) (pos / w) hin 0
  rw [Nat.add_sub_cancel' hcells, hpos, Nat.zero_add] at hloop
  rw [Nat.add_sub_cancel' hcells, hpos] at hp
  rw [countTrailingZeroes]
  dsimp only
  rw [hloop]
  dsimp only
  by_cases hrun : Bitmap.runFw (bit buf) false pos (limit / w * w) < limit / w * w - pos
  · left
    have hset := ((runFw_eq_iff (bit buf) false).mp rfl).2.2 hrun
    rw [if_pos (decide_eq_true hrun), runFw_split _ _ (show pos ≤ limit / w * w by omega)
      (Nat.div_mul_le_self limit w), if_neg (by omega)]
    exact ⟨Bool.eq_true_of_not_eq_false hset, by omega, rfl⟩
  · right
    have hle := leading_le (fun i => bit buf (pos + i) == false) (limit / w * w - pos)
    change Bitmap.runFw (bit buf) false pos (limit / w * w) ≤ _ at hle
    have heq : Bitmap.runFw (bit buf) false pos (limit / w * w) = limit / w * w - pos := by omega
    have hclear := ((runFw_eq_iff (bit buf) false).mp heq).2.1
    rw [decide_eq_false hrun, if_neg Bool.false_ne_true, heq]
    -- The scan of the last cell starts where that of the others ended.
    have hp' := hp heq
    have hstart : limit / w * w + p = max pos (limit / w * w) ∧
        (p = 0 ↔ pos / w < limit / w ∨ pos % w = 0) := by
      rw [hp']
      split_ifs with hsame
      · have hcell : limit / w = pos / w := by omega
        rw [hcell]
        omega
      · have hnext : (pos / w + 1) * w ≤ limit / w * w := Nat.mul_le_mul_right w (by omega)
        rw [Nat.add_one_mul] at hnext
        omega
    refine ⟨p, by omega, by omega, hstart.2, fun i hge hlt => hclear i hge (by omega), ?_⟩
    split_ifs <;> omega

/-- The position of the first one from `pos` on, or the limit where that comes first. -/
theorem countTrailingZeroes_eq_iff (hw : 0 < w) (buf : Cells w) {pos limit : ℕ}
    (h : pos ≤ limit) :
    countTrailingZeroes buf pos limit = Bitmap.runFw (bit buf) false pos limit ↔
      StopsAtLimit w (bit buf) pos limit := by
  rcases countTrailingZeroes_cases hw buf h with ⟨hone, hlt, heq⟩ | ⟨p, hge, hle, hp, hclear, heq⟩
  · exact iff_of_true heq (.inr (.inl ⟨_, Nat.le_add_right _ _, hlt.le, hone⟩))
  · have hzero := runFw_eq_self (bit buf) false hclear
    have hsplit := runFw_split (bit buf) false hge hle
    rw [if_pos hzero] at hsplit
    rw [heq, hsplit, StopsAtLimit, ← hp, Nat.add_left_cancel_iff]
    by_cases hsuffix : limit % w > 0
    · rw [if_pos hsuffix, lastCell_eq_iff hw buf hle hsuffix, or_iff_right (Nat.ne_of_gt hsuffix)]
      apply or_congr _ Iff.rfl
      constructor
      · rintro ⟨i, hge', hle', hbit⟩
        exact ⟨i, by omega, hle', hbit⟩
      · rintro ⟨i, hge', hle', hbit⟩
        refine ⟨i, ?_, hle', hbit⟩
        by_contra hlt
        rw [hclear i hge' (by omega)] at hbit
        cases hbit
    · have hlimit := Nat.div_add_mod' limit w
      have hend : Bitmap.runFw (bit buf) false (limit / w * w + p) limit = 0 := by
        rw [Bitmap.runFw, show limit - (limit / w * w + p) = 0 by omega, leading]
      rw [if_neg hsuffix, hend]
      exact iff_of_true rfl (.inl (by omega))

/-- A one below the limit is found. -/
theorem countTrailingZeroes_of_one (hw : 0 < w) (buf : Cells w) {pos limit n : ℕ}
    (hn : pos + n < limit) (hclear : ∀ i, pos ≤ i → i < pos + n → bit buf i = false)
    (hone : bit buf (pos + n) = true) : countTrailingZeroes buf pos limit = n := by
  have hrun : Bitmap.runFw (bit buf) false pos limit = n := by
    rw [runFw_eq_iff]
    refine ⟨by omega, hclear, fun _ => ?_⟩
    rw [hone]
    exact Bool.noConfusion
  rcases countTrailingZeroes_cases hw buf (show pos ≤ limit by omega) with
    ⟨-, -, heq⟩ | ⟨p, hge, hle, -, hbelow, heq⟩
  · rw [heq, hrun]
  · have hlast : limit / w * w + p ≤ pos + n := by
      by_contra hlt
      rw [hbelow _ (Nat.le_add_right _ _) (by omega)] at hone
      cases hone
    have hlimit := Nat.div_add_mod' limit w
    have hsuffix : limit % w > 0 := by omega
    have hsplit := runFw_split (bit buf) false hge hle
    rw [if_pos (runFw_eq_self (bit buf) false hbelow), hrun] at hsplit
    rw [heq, if_pos hsuffix,
      (lastCell_eq_iff hw buf hle hsuffix).mpr (.inl ⟨pos + n, hlast, hn.le, hone⟩), hsplit]

theorem countTrailingZeroes_eq_iff_bit :
    countTrailingZeroes (fun c => if c = 0 then 0x20#64 else 0) 0 9 =
      Bitmap.runFw (bit fun c => if c = 0 then 0x20#64 else 0) false 0 9 :=
  (countTrailingZeroes_eq_iff (by decide) (fun c => if c = 0 then 0x20#64 else 0)
    (by decide : 0 ≤ 9)).mpr (.inr (.inl ⟨5, by decide, by decide, by decide⟩))

/-- A one beyond the limit, in its cell. -/
theorem countTrailingZeroes_beyond :
    ¬ ∀ (buf : Cells 64) (pos limit : ℕ), pos ≤ limit →
      countTrailingZeroes buf pos limit = Bitmap.runFw (bit buf) false pos limit := by
  intro h
  have hbad := h (fun c => if c = 0 then 0x20#64 else 0) 0 3 (by decide)
  revert hbad
  decide +kernel

end Memoria.BitBuffer

import Mathlib.Data.BitVec
import Mathlib.Tactic.Ring

/-!
# Numbers in limbs

A row of limbs of `w` bits, the lowest first, is a number. The carry into a limb is what the limbs
below it send up, and a row is the sum of two others exactly when every one of its limbs counts that
carry.
-/

namespace Memoria.Lib

variable {w : ℕ} {a b : ℕ → BitVec w}

def limbsNumber (limbs : ℕ → BitVec w) : ℕ → ℕ
  | 0 => 0
  | n + 1 => limbsNumber limbs n + (limbs n).toNat * 2 ^ (w * n)

theorem limbsNumber_lt (limbs : ℕ → BitVec w) (n : ℕ) : limbsNumber limbs n < 2 ^ (w * n) := by
  induction n with
  | zero => exact Nat.one_pos
  | succ n ih =>
      have hlimb : (limbs n).toNat + 1 ≤ 2 ^ w := (limbs n).isLt
      calc limbsNumber limbs n + (limbs n).toNat * 2 ^ (w * n)
          < 2 ^ (w * n) + (limbs n).toNat * 2 ^ (w * n) := Nat.add_lt_add_right ih _
        _ = ((limbs n).toNat + 1) * 2 ^ (w * n) := by rw [Nat.add_one_mul, Nat.add_comm]
        _ ≤ 2 ^ w * 2 ^ (w * n) := Nat.mul_le_mul_right _ hlimb
        _ = 2 ^ (w * (n + 1)) := by rw [← Nat.pow_add, Nat.mul_add_one, Nat.add_comm]

theorem limbsNumber_congr {n : ℕ} (h : ∀ i < n, a i = b i) :
    limbsNumber a n = limbsNumber b n := by
  induction n with
  | zero => rfl
  | succ n ih =>
      rw [limbsNumber, limbsNumber, ih fun i hi => h i (Nat.lt_succ_of_lt hi),
        h n (Nat.lt_succ_self n)]

/-- The limbs of a number. -/
theorem limbsNumber_extractLsb' {w v : ℕ} (x : BitVec v) (n : ℕ) :
    limbsNumber (fun i => x.extractLsb' (w * i) w) n = x.toNat % 2 ^ (w * n) := by
  induction n with
  | zero => rw [limbsNumber, Nat.mul_zero, Nat.pow_zero, Nat.mod_one]
  | succ n ih =>
      rw [limbsNumber, ih, BitVec.extractLsb'_toNat, Nat.shiftRight_eq_div_pow, Nat.mul_succ,
        Nat.pow_add, Nat.mod_mul, Nat.mul_comm (2 ^ (w * n))]

/-- Digits over a base: the higher one decides, the lower one where they are equal. -/
theorem digits_lt_iff {low low' high high' base : ℕ} (h : low < base) (h' : low' < base) :
    low + high * base < low' + high' * base ↔ high < high' ∨ high = high' ∧ low < low' := by
  rcases Nat.lt_trichotomy high high' with hlt | heq | hgt
  · have hle : (high + 1) * base ≤ high' * base := Nat.mul_le_mul_right base hlt
    rw [Nat.add_one_mul] at hle
    omega
  · rw [heq]
    omega
  · have hle : (high' + 1) * base ≤ high * base := Nat.mul_le_mul_right base hgt
    rw [Nat.add_one_mul] at hle
    omega

theorem digits_eq_iff {low low' high high' base : ℕ} (h : low < base) (h' : low' < base) :
    low + high * base = low' + high' * base ↔ low = low' ∧ high = high' := by
  have hlt : low + high * base < low' + high' * base ↔ _ := digits_lt_iff h h'
  have hgt : low' + high' * base < low + high * base ↔ _ := digits_lt_iff h' h
  constructor
  · intro heq
    rw [heq] at hlt hgt
    omega
  · rintro ⟨rfl, rfl⟩
    rfl

theorem limbsNumber_succ_lt_iff (a b : ℕ → BitVec w) (n : ℕ) :
    limbsNumber a (n + 1) < limbsNumber b (n + 1) ↔
      a n < b n ∨ a n = b n ∧ limbsNumber a n < limbsNumber b n := by
  rw [limbsNumber, limbsNumber, digits_lt_iff (limbsNumber_lt a n) (limbsNumber_lt b n),
    BitVec.lt_def, ← BitVec.toNat_inj]

theorem limbsNumber_inj {n : ℕ} : limbsNumber a n = limbsNumber b n ↔ ∀ i < n, a i = b i := by
  constructor
  · intro h
    induction n with
    | zero => exact fun i hi => absurd hi (Nat.not_lt_zero i)
    | succ n ih =>
        obtain ⟨hlow, htop⟩ := (digits_eq_iff (limbsNumber_lt a n) (limbsNumber_lt b n)).mp h
        intro i hi
        rcases Nat.lt_succ_iff_lt_or_eq.mp hi with hi | rfl
        · exact ih hlow i hi
        · exact BitVec.eq_of_toNat_eq htop
  · exact limbsNumber_congr

def carryInto (a b : ℕ → BitVec w) (n : ℕ) : ℕ :=
  (limbsNumber a n + limbsNumber b n) / 2 ^ (w * n)

def borrowInto (a b : ℕ → BitVec w) (n : ℕ) : ℕ :=
  if limbsNumber a n < limbsNumber b n then 1 else 0

theorem carryInto_zero (a b : ℕ → BitVec w) : carryInto a b 0 = 0 := by
  rw [carryInto, limbsNumber, limbsNumber]
  exact Nat.zero_div _

theorem carryInto_succ (a b : ℕ → BitVec w) (n : ℕ) :
    carryInto a b (n + 1) = ((a n).toNat + (b n).toNat + carryInto a b n) / 2 ^ w := by
  have hbase : 0 < 2 ^ (w * n) := Nat.two_pow_pos _
  rw [carryInto, carryInto, limbsNumber, limbsNumber, Nat.mul_add_one, Nat.pow_add,
    ← Nat.div_div_eq_div_mul]
  congr 1
  rw [show limbsNumber a n + (a n).toNat * 2 ^ (w * n) +
      (limbsNumber b n + (b n).toNat * 2 ^ (w * n)) =
      limbsNumber a n + limbsNumber b n + ((a n).toNat + (b n).toNat) * 2 ^ (w * n) by ring,
    Nat.add_mul_div_right _ _ hbase, Nat.add_comm]

theorem carryInto_le (a b : ℕ → BitVec w) (n : ℕ) : carryInto a b n ≤ 1 := by
  have ha := limbsNumber_lt a n
  have hb := limbsNumber_lt b n
  rw [carryInto, ← Nat.lt_succ_iff, Nat.div_lt_iff_lt_mul (Nat.two_pow_pos _)]
  omega

theorem carryInto_eq_zero_iff {n : ℕ} :
    carryInto a b n = 0 ↔ limbsNumber a n + limbsNumber b n < 2 ^ (w * n) :=
  Nat.div_eq_zero_iff_lt (Nat.two_pow_pos _)

/-- A row is the sum modulo its size exactly when each limb counts the carry into it. -/
theorem limbsNumber_eq_add_mod_iff {sum : ℕ → BitVec w} {n : ℕ} :
    limbsNumber sum n = (limbsNumber a n + limbsNumber b n) % 2 ^ (w * n) ↔
      ∀ i < n, (sum i).toNat = ((a i).toNat + (b i).toNat + carryInto a b i) % 2 ^ w := by
  induction n with
  | zero =>
      simp only [limbsNumber, Nat.not_lt_zero, false_implies, implies_true, iff_true]
      exact (Nat.zero_mod _).symm
  | succ n ih =>
      have hdiv := Nat.div_add_mod (limbsNumber a n + limbsNumber b n) (2 ^ (w * n))
      have hlow := Nat.mod_lt (limbsNumber a n + limbsNumber b n) (Nat.two_pow_pos (w * n))
      change 2 ^ (w * n) * carryInto a b n + _ = _ at hdiv
      have hsum : limbsNumber a (n + 1) + limbsNumber b (n + 1) =
          (limbsNumber a n + limbsNumber b n) % 2 ^ (w * n) +
            2 ^ (w * n) * ((a n).toNat + (b n).toNat + carryInto a b n) := by
        rw [limbsNumber, limbsNumber]
        calc _ = 2 ^ (w * n) * carryInto a b n + (limbsNumber a n + limbsNumber b n) % 2 ^ (w * n) +
              ((a n).toNat + (b n).toNat) * 2 ^ (w * n) := by rw [hdiv]; ring
          _ = _ := by ring
      rw [Nat.forall_lt_succ_right, ← ih, hsum, Nat.mul_add_one, Nat.pow_add, Nat.mod_mul,
        Nat.add_mul_mod_self_left, Nat.mod_mod, Nat.add_mul_div_left _ _ (Nat.two_pow_pos _),
        Nat.div_eq_of_lt hlow, Nat.zero_add, limbsNumber, Nat.mul_comm (2 ^ (w * n))]
      generalize ((a n).toNat + (b n).toNat + carryInto a b n) % 2 ^ w = digit
      generalize (limbsNumber a n + limbsNumber b n) % 2 ^ (w * n) = low at hlow ⊢
      exact digits_eq_iff (limbsNumber_lt sum n) hlow

theorem borrowInto_succ (a b : ℕ → BitVec w) (n : ℕ) :
    borrowInto a b (n + 1) = if (a n).toNat < (b n).toNat + borrowInto a b n then 1 else 0 := by
  rw [borrowInto, limbsNumber, limbsNumber]
  apply if_congr _ rfl rfl
  rw [digits_lt_iff (limbsNumber_lt a n) (limbsNumber_lt b n), borrowInto]
  split_ifs <;> omega

/-- The difference and the number that is taken off add up to the other one and the borrow. -/
theorem limbsNumber_add_eq {diff : ℕ → BitVec w} {n : ℕ} (h : ∀ i < n, (diff i).toNat +
    (b i).toNat + borrowInto a b i = (a i).toNat + 2 ^ w * borrowInto a b (i + 1)) :
    limbsNumber diff n + limbsNumber b n =
      limbsNumber a n + 2 ^ (w * n) * borrowInto a b n := by
  induction n with
  | zero => rfl
  | succ n ih =>
      have hlow := ih fun i hi => h i (Nat.lt_succ_of_lt hi)
      have hdigit := h n (Nat.lt_succ_self n)
      rw [limbsNumber, limbsNumber, limbsNumber, Nat.mul_add_one, Nat.pow_add]
      generalize 2 ^ (w * n) = base at *
      calc _ = limbsNumber diff n + limbsNumber b n + ((diff n).toNat + (b n).toNat) * base := by
            ring
        _ = limbsNumber a n + ((diff n).toNat + (b n).toNat + borrowInto a b n) * base := by
            rw [hlow]
            ring
        _ = _ := by
            rw [hdigit]
            ring

end Memoria.Lib

import Memoria.Accumulators

/-!
# Exactness of the accumulators

The loops are followed by their carries: a limb of the result is right exactly when the carry into
it is, and the carry that the addition hands on is the right one unless it came into a limb of ones.
-/

namespace Memoria

open Lib

section LongOps

variable {process : BitVec 64 → BitVec 64 → BitVec 64 → BitVec 64 × BitVec 64}

theorem limbLoop_succ (process : BitVec 64 → BitVec 64 → BitVec 64 → BitVec 64 × BitVec 64)
    (dest x y : ℕ → BitVec 64) (n : ℕ) :
    limbLoop process dest x y (n + 1) =
      ⟨Function.update (limbLoop process dest x y n).dest n
          (process (x n) (y n) (limbLoop process dest x y n).carry).1,
        (process (x n) (y n) (limbLoop process dest x y n).carry).2⟩ := by
  rw [limbLoop, List.range_succ, List.foldl_append]
  rfl

/-- A limb behind the loop is untouched, one before it is written with the carry into it. -/
theorem limbLoop_dest (dest x y : ℕ → BitVec 64) (n i : ℕ) :
    (limbLoop process dest x y n).dest i =
      if i < n then (process (x i) (y i) (limbLoop process dest x y i).carry).1 else dest i := by
  induction n with
  | zero => rfl
  | succ n ih =>
      rw [limbLoop_succ]
      change Function.update (limbLoop process dest x y n).dest n _ i = _
      rw [Function.update_apply, ih]
      rcases Nat.lt_trichotomy i n with hlt | rfl | hgt
      · rw [if_neg (Nat.ne_of_lt hlt), if_pos hlt, if_pos (Nat.lt_succ_of_lt hlt)]
      · rw [if_pos rfl, if_pos (Nat.lt_succ_self i)]
      · rw [if_neg (Nat.ne_of_gt hgt), if_neg (by omega), if_neg (by omega)]

theorem limbLoopInPlace_eq (dest source : ℕ → BitVec 64) (n : ℕ) :
    limbLoopInPlace process dest source n = limbLoop process dest dest source n := by
  induction n with
  | zero => rfl
  | succ n ih =>
      have hlimb : (limbLoop process dest dest source n).dest n = dest n := by
        rw [limbLoop_dest, if_neg (Nat.lt_irrefl n)]
      rw [limbLoopInPlace, List.range_succ, List.foldl_append, ← limbLoopInPlace, ih,
        List.foldl_cons, List.foldl_nil, hlimb, limbLoop_succ]

end LongOps

def AddsExactly (n : ℕ) (x y : ℕ → BitVec 64) (result : (ℕ → BitVec 64) × Bool) : Prop :=
  limbsNumber result.1 n = (limbsNumber x n + limbsNumber y n) % 2 ^ (64 * n) ∧
    (result.2 = true ↔ limbsNumber x n + limbsNumber y n < 2 ^ (64 * n))

def SubsExactly (n : ℕ) (x y : ℕ → BitVec 64) (result : (ℕ → BitVec 64) × Bool) : Prop :=
  limbsNumber result.1 n = (limbsNumber x n + 2 ^ (64 * n) - limbsNumber y n) % 2 ^ (64 * n) ∧
    (result.2 = true ↔ limbsNumber y n ≤ limbsNumber x n)

def KeepsCarries (n : ℕ) (x y : ℕ → BitVec 64) : Prop :=
  ∀ c < n, x c = BitVec.allOnes 64 → limbsNumber x c + limbsNumber y c < 2 ^ (64 * c)

section Addition

variable (dest x y : ℕ → BitVec 64)

def addCarry (c : ℕ) : ℕ := (limbLoop BuiltinAddCH.process dest x y c).carry.toNat

theorem addCarry_zero : addCarry dest x y 0 = 0 := rfl

theorem addCarry_succ (c : ℕ) :
    addCarry dest x y (c + 1) =
      if ((x c).toNat + addCarry dest x y c) % 2 ^ 64 + (y c).toNat ≥ 2 ^ 64 then 1 else 0 := by
  rw [addCarry, limbLoop_succ, BuiltinAddCH.process, apply_ite BitVec.toNat]
  simp only [BitVec.uaddOverflow, BitVec.toNat_add, decide_eq_true_eq]
  rfl

theorem addCarry_le (c : ℕ) : addCarry dest x y c ≤ 1 := by
  cases c with
  | zero => exact Nat.zero_le 1
  | succ c =>
      rw [addCarry_succ]
      split_ifs <;> omega

theorem toNat_addLimb (c : ℕ) :
    ((BuiltinAddCH.process (x c) (y c) (limbLoop BuiltinAddCH.process dest x y c).carry).1).toNat =
      ((x c).toNat + (y c).toNat + addCarry dest x y c) % 2 ^ 64 := by
  rw [BuiltinAddCH.process, addCarry, BitVec.toNat_add, BitVec.toNat_add, Nat.mod_add_mod,
    Nat.add_right_comm]

variable {dest x y}

/-- The carry is handed on, except from a limb of ones. -/
theorem addCarry_succ_eq_iff {c : ℕ} (h : addCarry dest x y c = carryInto x y c) :
    addCarry dest x y (c + 1) = carryInto x y (c + 1) ↔
      (x c = BitVec.allOnes 64 → carryInto x y c = 0) := by
  have hx := (x c).isLt
  have hy := (y c).isLt
  have hle := carryInto_le x y c
  rw [addCarry_succ, h, carryInto_succ, ← BitVec.toNat_inj, BitVec.toNat_allOnes]
  split_ifs <;> omega

theorem addCarries_iff (n : ℕ) :
    (∀ c ≤ n, addCarry dest x y c = carryInto x y c) ↔ KeepsCarries n x y := by
  induction n with
  | zero =>
      constructor
      · exact fun _ c hc => absurd hc (Nat.not_lt_zero c)
      · intro _ c hc
        rw [Nat.le_zero.mp hc, addCarry_zero, carryInto_zero]
  | succ n ih =>
      rw [KeepsCarries, Nat.forall_lt_succ_right, ← KeepsCarries, ← ih]
      constructor
      · intro h
        refine ⟨fun c hc => h c (Nat.le_succ_of_le hc), ?_⟩
        rw [← carryInto_eq_zero_iff]
        exact (addCarry_succ_eq_iff (h n (Nat.le_succ n))).mp (h (n + 1) (Nat.le_refl _))
      · rintro ⟨h, hn⟩ c hc
        rw [← carryInto_eq_zero_iff, ← addCarry_succ_eq_iff (h n (Nat.le_refl n))] at hn
        rcases Nat.le_succ_iff.mp hc with hc | rfl
        · exact h c hc
        · exact hn

/-- The limbs are those of the sum exactly when the carries into them are right. -/
theorem add_value_iff (n : ℕ) :
    limbsNumber (limbLoop BuiltinAddCH.process dest x y n).dest n =
        (limbsNumber x n + limbsNumber y n) % 2 ^ (64 * n) ↔
      ∀ c < n, addCarry dest x y c = carryInto x y c := by
  rw [limbsNumber_eq_add_mod_iff]
  apply forall₂_congr
  intro c hc
  have hcode := addCarry_le dest x y c
  have htrue := carryInto_le x y c
  rw [limbLoop_dest, if_pos hc, toNat_addLimb]
  omega

theorem longAddTo_eq (dest source : ℕ → BitVec 64) (n : ℕ) :
    longAddTo dest source n = longAddTo₂ dest dest source n := by
  rw [longAddTo, longAddTo₂, limbLoopInPlace_eq]

theorem longAddTo₂_exact_iff (n : ℕ) :
    AddsExactly n x y (longAddTo₂ dest x y n) ↔ KeepsCarries n x y := by
  have hcode := addCarry_le dest x y n
  have htrue := carryInto_le x y n
  have hflag : ((limbLoop BuiltinAddCH.process dest x y n).carry == 0) = true ↔
      addCarry dest x y n = 0 := by
    rw [beq_iff_eq, ← BitVec.toNat_inj]
    rfl
  rw [AddsExactly, longAddTo₂, LimbLoop.result, add_value_iff, hflag, ← carryInto_eq_zero_iff,
    ← @addCarries_iff dest]
  constructor
  · rintro ⟨hbelow, hlast⟩ c hc
    rcases Nat.lt_or_eq_of_le hc with hc | rfl
    · exact hbelow c hc
    · omega
  · intro h
    exact ⟨fun c hc => h c (Nat.le_of_lt hc), by rw [h n (Nat.le_refl n)]⟩

end Addition

section Subtraction

variable (dest x y : ℕ → BitVec 64)

/-- The borrow that the loop of the subtraction brings to limb `c` is the right one. -/
theorem subBorrow_eq (c : ℕ) :
    (limbLoop BuiltinSubCH.process dest x y c).carry.toNat = borrowInto x y c := by
  induction c with
  | zero => rfl
  | succ c ih =>
      have hx := (x c).isLt
      have hy := (y c).isLt
      have hle : borrowInto x y c ≤ 1 := by
        rw [borrowInto]
        split_ifs <;> omega
      rw [limbLoop_succ, BuiltinSubCH.process, borrowInto_succ, apply_ite BitVec.toNat]
      simp only [BitVec.usubOverflow, Bool.or_eq_true, decide_eq_true_eq, BitVec.toNat_sub, ih]
      apply if_congr _ rfl rfl
      omega

theorem longSubFrom_eq (dest op : ℕ → BitVec 64) (n : ℕ) :
    longSubFrom dest op n = longSubFrom₂ dest dest op n := by
  rw [longSubFrom, longSubFrom₂, limbLoopInPlace_eq]

theorem longSubFrom₂_exact (n : ℕ) : SubsExactly n x y (longSubFrom₂ dest x y n) := by
  have hsum : limbsNumber (limbLoop BuiltinSubCH.process dest x y n).dest n + limbsNumber y n =
      limbsNumber x n + 2 ^ (64 * n) * borrowInto x y n := by
    apply limbsNumber_add_eq
    intro c hc
    have hx := (x c).isLt
    have hy := (y c).isLt
    have hle : borrowInto x y c ≤ 1 := by
      rw [borrowInto]
      split_ifs <;> omega
    rw [limbLoop_dest, if_pos hc, BuiltinSubCH.process, borrowInto_succ, BitVec.toNat_sub,
      BitVec.toNat_sub, subBorrow_eq]
    split_ifs <;> omega
  have hx := limbsNumber_lt x n
  have hy := limbsNumber_lt y n
  constructor
  · change limbsNumber (limbLoop BuiltinSubCH.process dest x y n).dest n = _
    rw [borrowInto] at hsum
    generalize 2 ^ (64 * n) = size at *
    split_ifs at hsum with h
    · rw [Nat.mod_eq_of_lt (by omega)]
      omega
    · rw [show limbsNumber x n + size - limbsNumber y n =
          limbsNumber x n - limbsNumber y n + size by omega, Nat.add_mod_right,
        Nat.mod_eq_of_lt (by omega)]
      omega
  · rw [longSubFrom₂, LimbLoop.result, beq_iff_eq, ← BitVec.toNat_inj, subBorrow_eq, borrowInto]
    split_ifs with h
    · exact iff_of_false Nat.one_ne_zero (Nat.not_le.mpr h)
    · exact iff_of_true rfl (Nat.le_of_not_lt h)

end Subtraction

namespace UnsignedAccumulator

variable {bitLength : ℕ}

def toNat (acc : UnsignedAccumulator bitLength) : ℕ := limbsNumber acc.limbs (size bitLength)

theorem limbs_ofLimbs (limbs : ℕ → BitVec 64) {c : ℕ} (h : c < size bitLength) :
    (ofLimbs limbs : UnsignedAccumulator bitLength).limbs c = limbs c := by
  rw [UnsignedAccumulator.limbs, ofLimbs, Vector.getElem?_eq_getElem h, Option.getD_some,
    Vector.getElem_ofFn]

theorem toNat_ofLimbs (limbs : ℕ → BitVec 64) :
    (ofLimbs limbs : UnsignedAccumulator bitLength).toNat = limbsNumber limbs (size bitLength) :=
  limbsNumber_congr fun _ h => limbs_ofLimbs limbs h

theorem limbsNumber_single (v : BitVec 64) (n : ℕ) : limbsNumber (single v) (n + 1) = v.toNat := by
  induction n with
  | zero => simp [limbsNumber, single]
  | succ n ih =>
      rw [limbsNumber, ih, single, Function.update_of_ne (Nat.succ_ne_zero n)]
      simp

theorem compareFrom_lt_iff (a b : ℕ → BitVec 64) (c : ℕ) :
    compareFrom (· < ·) (· < ·) a b c = true ↔ limbsNumber a (c + 1) < limbsNumber b (c + 1) := by
  induction c with
  | zero => simp [compareFrom, limbsNumber, BitVec.lt_def]
  | succ c ih =>
      rw [compareFrom, limbsNumber_succ_lt_iff, ← ih]
      split_ifs with h
      · simp [h]
      · simp [not_not.mp h]

theorem compareFrom_le_iff (a b : ℕ → BitVec 64) (c : ℕ) :
    compareFrom (· < ·) (· ≤ ·) a b c = true ↔ limbsNumber a (c + 1) ≤ limbsNumber b (c + 1) := by
  induction c with
  | zero => simp [compareFrom, limbsNumber, BitVec.le_def]
  | succ c ih =>
      rw [compareFrom, ← Nat.not_lt, limbsNumber_succ_lt_iff]
      split_ifs with h
      · simp only [decide_eq_true_eq, Ne.symm h, false_and, or_false, BitVec.not_lt]
        exact ⟨BitVec.le_of_lt, fun hle => by
          rw [BitVec.lt_def]
          exact Nat.lt_of_le_of_ne hle fun heq => h (BitVec.eq_of_toNat_eq heq)⟩
      · rw [ih, not_not.mp h, ← Nat.not_lt]
        simp

theorem compareFrom_swap (differs last : BitVec 64 → BitVec 64 → Bool) (a b : ℕ → BitVec 64)
    (c : ℕ) : compareFrom (fun v u => differs u v) (fun v u => last u v) a b c =
      compareFrom differs last b a c := by
  induction c with
  | zero => rfl
  | succ c ih =>
      rw [compareFrom, compareFrom, ih]
      exact if_congr ne_comm rfl rfl

theorem toNat_eq_top (acc : UnsignedAccumulator bitLength) :
    acc.toNat = limbsNumber acc.limbs (size bitLength - 1 + 1) := by
  rw [toNat]
  rcases Nat.eq_zero_or_pos (size bitLength) with h | h
  · have hlimb : acc.limbs 0 = 0 := by
      rw [UnsignedAccumulator.limbs, Vector.getElem?_eq_none (Nat.le_of_eq h), Option.getD_none]
    rw [h, limbsNumber, limbsNumber, limbsNumber, hlimb]
    simp
  · rw [Nat.sub_add_cancel h]

inductive Operator
  | add | addAssign | addValue | addAssignValue | preIncrement | postIncrement
  | sub | subAssign | subValue | subAssignValue | preDecrement | postDecrement
  | lt | le | gt | ge | ne | eq

def IsSum (acc : UnsignedAccumulator bitLength) (n : ℕ) (result : UnsignedAccumulator bitLength) :
    Prop :=
  result.toNat = (acc.toNat + n) % 2 ^ (64 * size bitLength)

def IsDifference (acc : UnsignedAccumulator bitLength) (n : ℕ)
    (result : UnsignedAccumulator bitLength) : Prop :=
  result.toNat = (acc.toNat + 2 ^ (64 * size bitLength) - n) % 2 ^ (64 * size bitLength)

/-- The operator is the one on the numbers. A prefix operator has to give the next number and to
leave it in the object. -/
def Operator.Exact (acc other : UnsignedAccumulator bitLength) (v : BitVec 64) : Operator → Prop
  | add => acc.IsSum other.toNat (acc.add other)
  | addAssign => acc.IsSum other.toNat (acc.addAssign other)
  | addValue => acc.IsSum v.toNat (acc.addValue v)
  | addAssignValue => acc.IsSum v.toNat (acc.addAssignValue v)
  | preIncrement => acc.IsSum 1 acc.preIncrement.1 ∧ acc.IsSum 1 acc.preIncrement.2
  | postIncrement => acc.IsSum 1 acc.postIncrement
  | sub => acc.IsDifference other.toNat (acc.sub other)
  | subAssign => acc.IsDifference other.toNat (acc.subAssign other)
  | subValue => acc.IsDifference v.toNat (acc.subValue v)
  | subAssignValue => acc.IsDifference v.toNat (acc.subAssignValue v)
  | preDecrement => acc.IsDifference 1 acc.preDecrement.1 ∧ acc.IsDifference 1 acc.preDecrement.2
  | postDecrement => acc.IsDifference 1 acc.postDecrement
  | lt => acc.lt other = true ↔ acc.toNat < other.toNat
  | le => acc.le other = true ↔ acc.toNat ≤ other.toNat
  | gt => acc.gt other = true ↔ acc.toNat > other.toNat
  | ge => acc.ge other = true ↔ acc.toNat ≥ other.toNat
  | ne => acc.ne other = true ↔ acc.toNat ≠ other.toNat
  | eq => acc.eq other = true ↔ acc.toNat = other.toNat

/-- When an operator is exact: a sum as long as no carry is lost below the top limb, a prefix
operator in an accumulator without limbs only. -/
def Operator.InOrder (acc other : UnsignedAccumulator bitLength) (v : BitVec 64) : Operator → Prop
  | add | addAssign => KeepsCarries (size bitLength - 1) acc.limbs other.limbs
  | addValue | addAssignValue => KeepsCarries (size bitLength - 1) acc.limbs (single v)
  | postIncrement => KeepsCarries (size bitLength - 1) acc.limbs (single 1)
  | preIncrement | preDecrement => size bitLength = 0
  | _ => True

section Operators

variable (acc other : UnsignedAccumulator bitLength) (v : BitVec 64)

theorem lt_iff : acc.lt other = true ↔ acc.toNat < other.toNat := by
  rw [toNat_eq_top, toNat_eq_top]
  exact compareFrom_lt_iff _ _ _

theorem le_iff : acc.le other = true ↔ acc.toNat ≤ other.toNat := by
  rw [toNat_eq_top, toNat_eq_top]
  exact compareFrom_le_iff _ _ _

theorem gt_eq : acc.gt other = other.lt acc := compareFrom_swap (· < ·) (· < ·) _ _ _

theorem ge_eq : acc.ge other = other.le acc := compareFrom_swap (· < ·) (· ≤ ·) _ _ _

theorem eq_iff : acc.eq other = true ↔ acc.toNat = other.toNat := by
  rw [toNat, toNat, limbsNumber_inj, eq, List.all_eq_true]
  simp only [List.mem_range, beq_iff_eq]

theorem ne_eq_not : acc.ne other = !acc.eq other := by
  rw [ne, eq, List.not_all_eq_any_not]
  rfl

theorem limbsNumber_single_mod (n : ℕ) :
    limbsNumber (single v) n % 2 ^ (64 * n) = v.toNat % 2 ^ (64 * n) := by
  cases n with
  | zero => rw [Nat.mul_zero, Nat.pow_zero, Nat.mod_one, Nat.mod_one]
  | succ n => rw [limbsNumber_single]

/-- The sums are right exactly when no carry is lost below the top limb. -/
theorem add_iff (dest y : ℕ → BitVec 64) :
    (ofLimbs (longAddTo₂ dest acc.limbs y (size bitLength)).1 :
        UnsignedAccumulator bitLength).toNat =
        (acc.toNat + limbsNumber y (size bitLength)) % 2 ^ (64 * size bitLength) ↔
      KeepsCarries (size bitLength - 1) acc.limbs y := by
  rw [toNat_ofLimbs, toNat, ← @addCarries_iff dest]
  apply (add_value_iff (size bitLength)).trans
  constructor
  · intro h c hc
    rcases Nat.eq_zero_or_pos c with rfl | hpos
    · rw [addCarry_zero, carryInto_zero]
    · exact h c (by omega)
  · exact fun h c hc => h c (by omega)

theorem sub_eq (dest y : ℕ → BitVec 64) :
    (ofLimbs (longSubFrom₂ dest acc.limbs y (size bitLength)).1 :
        UnsignedAccumulator bitLength).toNat =
      (acc.toNat + 2 ^ (64 * size bitLength) - limbsNumber y (size bitLength)) %
        2 ^ (64 * size bitLength) := by
  rw [toNat_ofLimbs, toNat]
  exact (longSubFrom₂_exact dest acc.limbs y (size bitLength)).1

/-- The limbs of one 64-bit value in the place of an accumulator. -/
theorem add_single_mod (a n : ℕ) :
    (a + limbsNumber (single v) n) % 2 ^ (64 * n) = (a + v.toNat) % 2 ^ (64 * n) := by
  rw [Nat.add_mod, limbsNumber_single_mod, ← Nat.add_mod]

theorem sub_single_mod (a n : ℕ) :
    (a + 2 ^ (64 * n) - limbsNumber (single v) n) % 2 ^ (64 * n) =
      (a + 2 ^ (64 * n) - v.toNat) % 2 ^ (64 * n) := by
  cases n with
  | zero => rw [Nat.mul_zero, Nat.pow_zero, Nat.mod_one, Nat.mod_one]
  | succ n => rw [limbsNumber_single]

theorem addValue_iff (dest : ℕ → BitVec 64) :
    (ofLimbs (longAddTo₂ dest acc.limbs (single v) (size bitLength)).1 :
        UnsignedAccumulator bitLength).toNat =
        (acc.toNat + v.toNat) % 2 ^ (64 * size bitLength) ↔
      KeepsCarries (size bitLength - 1) acc.limbs (single v) := by
  rw [← add_single_mod]
  exact add_iff acc dest (single v)

theorem subValue_eq (dest : ℕ → BitVec 64) :
    (ofLimbs (longSubFrom₂ dest acc.limbs (single v) (size bitLength)).1 :
        UnsignedAccumulator bitLength).toNat =
      (acc.toNat + 2 ^ (64 * size bitLength) - v.toNat) % 2 ^ (64 * size bitLength) := by
  rw [← sub_single_mod]
  exact sub_eq acc dest (single v)

theorem addAssignValue_iff :
    acc.IsSum v.toNat (acc.addAssignValue v) ↔
      KeepsCarries (size bitLength - 1) acc.limbs (single v) := by
  rw [IsSum, addAssignValue, longAddTo_eq]
  exact addValue_iff acc v _

theorem subAssignValue_exact : acc.IsDifference v.toNat (acc.subAssignValue v) := by
  rw [IsDifference, subAssignValue, longSubFrom_eq]
  exact subValue_eq acc v _

theorem size_eq_zero_of_self {n : ℕ} (hn : acc.toNat = n % 2 ^ (64 * size bitLength))
    (hne : n % 2 ^ (64 * size bitLength) = acc.toNat → 2 ^ (64 * size bitLength) = 1) :
    size bitLength = 0 := by
  rcases Nat.pow_eq_one.mp (hne hn.symm) with h | h <;> omega

/-- An object that is left as it is has the next number only if it has no limb. -/
theorem isSum_self_iff : acc.IsSum 1 acc ↔ size bitLength = 0 := by
  have hlt : acc.toNat < 2 ^ (64 * size bitLength) := limbsNumber_lt _ _
  rw [IsSum]
  constructor
  · intro h
    refine size_eq_zero_of_self acc h fun _ => ?_
    generalize 2 ^ (64 * size bitLength) = m at *
    rcases Nat.lt_or_ge (acc.toNat + 1) m with hm | hm
    · rw [Nat.mod_eq_of_lt hm] at h
      omega
    · rw [show acc.toNat + 1 = m by omega, Nat.mod_self] at h
      omega
  · intro h
    rw [h, Nat.mul_zero, Nat.pow_zero] at hlt ⊢
    omega

theorem isDifference_self_iff : acc.IsDifference 1 acc ↔ size bitLength = 0 := by
  have hlt : acc.toNat < 2 ^ (64 * size bitLength) := limbsNumber_lt _ _
  rw [IsDifference]
  constructor
  · intro h
    refine size_eq_zero_of_self acc h fun _ => ?_
    generalize 2 ^ (64 * size bitLength) = m at *
    rcases Nat.eq_zero_or_pos acc.toNat with hz | hpos
    · rw [hz, Nat.zero_add, Nat.mod_eq_of_lt (by omega)] at h
      omega
    · rw [show acc.toNat + m - 1 = acc.toNat - 1 + m by omega, Nat.add_mod_right,
        Nat.mod_eq_of_lt (by omega)] at h
      omega
  · intro h
    rw [h, Nat.mul_zero, Nat.pow_zero] at hlt ⊢
    omega

theorem isSum_of_size {n : ℕ} {result : UnsignedAccumulator bitLength} (h : size bitLength = 0) :
    acc.IsSum n result := by
  have hlt : result.toNat < 2 ^ (64 * size bitLength) := limbsNumber_lt _ _
  rw [IsSum]
  rw [h, Nat.mul_zero, Nat.pow_zero] at hlt ⊢
  omega

theorem Operator.exact_iff (op : Operator) : op.Exact acc other v ↔ op.InOrder acc other v := by
  cases op with
  | add => exact add_iff acc _ _
  | addAssign =>
      rw [Exact, IsSum, UnsignedAccumulator.addAssign, longAddTo_eq]
      exact add_iff acc _ _
  | addValue => exact addValue_iff acc v _
  | addAssignValue => exact addAssignValue_iff acc v
  | preIncrement =>
      exact (and_iff_left_of_imp fun h => isSum_of_size acc ((isSum_self_iff acc).mp h)).trans
        (isSum_self_iff acc)
  | postIncrement => exact addAssignValue_iff acc 1
  | sub => exact iff_of_true (sub_eq acc _ _) trivial
  | subAssign =>
      rw [Exact, IsDifference, UnsignedAccumulator.subAssign, longSubFrom_eq]
      exact iff_of_true (sub_eq acc _ _) trivial
  | subValue => exact iff_of_true (subValue_eq acc v _) trivial
  | subAssignValue => exact iff_of_true (subAssignValue_exact acc v) trivial
  | preDecrement =>
      exact (and_iff_left_of_imp fun _ => subAssignValue_exact acc 1).trans
        (isDifference_self_iff acc)
  | postDecrement => exact iff_of_true (subAssignValue_exact acc 1) trivial
  | lt => exact iff_of_true (lt_iff acc other) trivial
  | le => exact iff_of_true (le_iff acc other) trivial
  | gt =>
      rw [Exact, gt_eq]
      exact iff_of_true (lt_iff other acc) trivial
  | ge =>
      rw [Exact, ge_eq]
      exact iff_of_true (le_iff other acc) trivial
  | ne =>
      rw [Exact, ne_eq_not, Bool.not_eq_true', ← Bool.not_eq_true, eq_iff]
      exact iff_of_true Iff.rfl trivial
  | eq => exact iff_of_true (eq_iff acc other) trivial

end Operators

/-- The arithmetic is exact up to the carries that come into a limb of ones of the left operand:
one of them is lost, and with it the flag of the addition of limbs, and every operator that adds
when there is a limb above. The prefix operators never leave the next number in the object. -/
theorem arithmetic_exact_iff (n : ℕ) (dest x y : ℕ → BitVec 64)
    (acc other : UnsignedAccumulator bitLength) (v : BitVec 64) :
    ((AddsExactly n x y (longAddTo x y n) ∧ AddsExactly n x y (longAddTo₂ dest x y n)) ↔
      KeepsCarries n x y) ∧
    SubsExactly n x y (longSubFrom x y n) ∧ SubsExactly n x y (longSubFrom₂ dest x y n) ∧
    ∀ op : Operator, op.Exact acc other v ↔ op.InOrder acc other v := by
  rw [longAddTo_eq, longSubFrom_eq, longAddTo₂_exact_iff, longAddTo₂_exact_iff, and_self_iff]
  exact ⟨Iff.rfl, longSubFrom₂_exact x x y n, longSubFrom₂_exact dest x y n,
    fun op => op.exact_iff acc other v⟩

/-- The successor of `2 ^ 128 - 1` comes out as zero in 192 bits, the addition of two limbs reports
no overflow for it, and the prefix operator leaves the object as it is. -/
theorem successor_lost :
    (⟨#v[BitVec.allOnes 64, BitVec.allOnes 64, 0]⟩ : UnsignedAccumulator 192).postIncrement.toNat
        = 0 ∧
      ¬AddsExactly 2 (fun _ => BitVec.allOnes 64) (single 1)
        (longAddTo (fun _ => BitVec.allOnes 64) (single 1) 2) ∧
      (zero : UnsignedAccumulator 192).preIncrement.1.toNat = 0 := by
  rw [longAddTo_eq, longAddTo₂_exact_iff, KeepsCarries]
  refine ⟨by decide +kernel, ?_, by decide +kernel⟩
  intro h
  exact absurd (h 1 (by decide) rfl) (by decide +kernel)

end UnsignedAccumulator

end Memoria

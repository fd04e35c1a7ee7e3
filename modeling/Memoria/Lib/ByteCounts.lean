import Mathlib.Data.Nat.Bitwise
import Mathlib.Data.List.Basic

/-!
# Counting bits in parallel

The bits of a number are counted in all its bytes at once: first in pairs, then in nibbles, then in
bytes. No count overflows its field, so that each step acts on every byte by itself.
-/

namespace Memoria.Lib

def repeated (c : ℕ) : ℕ → ℕ
  | 0 => 0
  | n + 1 => c + 256 * repeated c n

def pairCounts (n x : ℕ) : ℕ := x - (x / 2 &&& repeated 0x55 n)

def nibbleCounts (n x : ℕ) : ℕ :=
  (pairCounts n x / 4 &&& repeated 0x33 n) + (pairCounts n x &&& repeated 0x33 n)

def byteCounts (n x : ℕ) : ℕ :=
  nibbleCounts n x + nibbleCounts n x / 16 &&& repeated 0x0F n

def onesBelow (n x : ℕ) : ℕ := (List.range n).countP x.testBit

theorem and_bytes {p c : ℕ} (hp : p < 256) (hc : c < 256) (q r : ℕ) :
    (p + 256 * q &&& c + 256 * r) = (p &&& c) + 256 * (q &&& r) := by
  have hpow : 256 = 2 ^ 8 := rfl
  have hand : p &&& c < 2 ^ 8 := Nat.and_lt_two_pow p hc
  rw [hpow, Nat.add_comm p, Nat.add_comm c, Nat.add_comm (p &&& c)]
  apply Nat.eq_of_testBit_eq
  intro i
  rw [Nat.testBit_and, Nat.testBit_two_pow_mul_add _ hp, Nat.testBit_two_pow_mul_add _ hc,
    Nat.testBit_two_pow_mul_add _ hand, Nat.testBit_and, Nat.testBit_and]
  split <;> rfl

/-- A mask below `2 ^ n` reads the lowest `n` bits only. -/
theorem and_mask {a b c n : ℕ} (h : a % 2 ^ n = b % 2 ^ n) (hc : c < 2 ^ n) :
    a &&& c = b &&& c := by
  have hmod (a : ℕ) : a &&& c = (a % 2 ^ n) &&& c := by
    rw [← Nat.mod_eq_of_lt (Nat.lt_of_le_of_lt Nat.and_le_right hc : a &&& c < 2 ^ n),
      Nat.and_mod_two_pow, Nat.mod_eq_of_lt hc]
  rw [hmod a, hmod b, h]

/-- The counts in one byte. -/
theorem byte_counts : ∀ b < 256, nibbleCounts 1 b ≤ 0x44 ∧ nibbleCounts 1 b % 16 ≤ 4 ∧
    byteCounts 1 b = onesBelow 8 b := by
  decide +kernel

section Bytes

variable {b : ℕ} (hb : b < 256) (n q : ℕ)

include hb

theorem pairCounts_byte : pairCounts (n + 1) (b + 256 * q) = pairCounts 1 b + 256 * pairCounts n q := by
  have hhalf : (b + 256 * q) / 2 = b / 2 + 128 * (q % 2) + 256 * (q / 2) := by omega
  have hlow : (b / 2 + 128 * (q % 2) &&& 0x55) = (b / 2 &&& 0x55) :=
    @and_mask _ _ _ 7 (by omega) (by decide)
  have hle : b / 2 &&& 0x55 ≤ b / 2 := Nat.and_le_left
  have hle' : q / 2 &&& repeated 0x55 n ≤ q / 2 := Nat.and_le_left
  simp only [pairCounts, repeated, hhalf, Nat.mul_zero, Nat.add_zero]
  rw [and_bytes (by omega) (by decide), hlow]
  omega

theorem pairCounts_lt : pairCounts 1 b < 256 :=
  Nat.lt_of_le_of_lt (Nat.sub_le _ _) hb

theorem nibbleCounts_byte :
    nibbleCounts (n + 1) (b + 256 * q) = nibbleCounts 1 b + 256 * nibbleCounts n q := by
  have ha := pairCounts_lt hb
  have hpairs := pairCounts_byte hb n q
  have hlow : (pairCounts 1 b / 4 + 64 * (pairCounts n q % 4) &&& 0x33) =
      (pairCounts 1 b / 4 &&& 0x33) := @and_mask _ _ _ 6 (by omega) (by decide)
  have hfourth : (pairCounts 1 b + 256 * pairCounts n q) / 4 =
      pairCounts 1 b / 4 + 64 * (pairCounts n q % 4) + 256 * (pairCounts n q / 4) := by omega
  simp only [nibbleCounts, hpairs, hfourth, repeated, Nat.mul_zero, Nat.add_zero]
  rw [and_bytes (by omega) (by decide), and_bytes ha (by decide), hlow]
  omega

theorem nibbleCounts_le : nibbleCounts 1 b ≤ 0x44 ∧ nibbleCounts 1 b % 16 ≤ 4 :=
  ⟨(byte_counts b hb).1, (byte_counts b hb).2.1⟩

theorem byteCounts_one : byteCounts 1 b = onesBelow 8 b :=
  (byte_counts b hb).2.2

end Bytes

theorem nibbleCounts_mod (n x : ℕ) : nibbleCounts n x % 16 ≤ 4 := by
  cases n with
  | zero => simp [nibbleCounts, repeated]
  | succ n =>
      have hlow : x % 256 < 256 := Nat.mod_lt x (by decide)
      have hle := (nibbleCounts_le hlow).2
      have hstep := nibbleCounts_byte hlow n (x / 256)
      rw [Nat.mod_add_div] at hstep
      omega

theorem nibbleCounts_le_repeated (n x : ℕ) : nibbleCounts n x ≤ repeated 0x44 n := by
  induction n generalizing x with
  | zero => simp [nibbleCounts, repeated]
  | succ n ih =>
      have hlow : x % 256 < 256 := Nat.mod_lt x (by decide)
      have hstep := nibbleCounts_byte hlow n (x / 256)
      have hle := (nibbleCounts_le hlow).1
      have hrest := ih (x / 256)
      rw [Nat.mod_add_div] at hstep
      rw [repeated]
      omega

theorem byteCounts_succ (n x : ℕ) :
    byteCounts (n + 1) x = onesBelow 8 (x % 256) + 256 * byteCounts n (x / 256) := by
  have hlow : x % 256 < 256 := Nat.mod_lt x (by decide)
  have hstep := nibbleCounts_byte hlow n (x / 256)
  rw [Nat.mod_add_div] at hstep
  have hle := nibbleCounts_le hlow
  have hmod := nibbleCounts_mod n (x / 256)
  have hone := byteCounts_one hlow
  simp only [byteCounts, repeated, Nat.mul_zero, Nat.add_zero] at hone ⊢
  rw [hstep, ← hone]
  generalize nibbleCounts 1 (x % 256) = a at *
  generalize nibbleCounts n (x / 256) = c at *
  have hlow : (a + a / 16 + 16 * (c % 16) &&& 0x0F) = (a + a / 16 &&& 0x0F) :=
    @and_mask _ _ _ 4 (by omega) (by decide)
  -- The carry of the higher byte reaches the high nibble only, which the mask clears.
  have hsum : a + 256 * c + (a + 256 * c) / 16 =
      (a + a / 16 + 16 * (c % 16)) + 256 * (c + c / 16) := by omega
  rw [hsum, and_bytes (by omega) (by decide), hlow]

theorem byteCounts_zero (x : ℕ) : byteCounts 0 x = 0 := by
  simp [byteCounts, repeated]

theorem onesBelow_le (n x : ℕ) : onesBelow n x ≤ n := by
  calc onesBelow n x ≤ (List.range n).length := List.countP_le_length
    _ = n := List.length_range

theorem onesBelow_add (m n x : ℕ) : onesBelow (m + n) x = onesBelow m x + onesBelow n (x / 2 ^ m) := by
  rw [onesBelow, onesBelow, onesBelow, List.range_add, List.countP_append, List.countP_map]
  congr 1
  apply List.countP_congr
  intro i _
  rw [Function.comp_apply, Nat.testBit_div_two_pow, Nat.add_comm]

theorem onesBelow_mod (n x : ℕ) : onesBelow n (x % 2 ^ n) = onesBelow n x := by
  apply List.countP_congr
  intro i hi
  rw [Nat.testBit_mod_two_pow, decide_eq_true (List.mem_range.mp hi), Bool.true_and]

theorem onesBelow_bytes (n x : ℕ) :
    onesBelow (8 * (n + 1)) x = onesBelow 8 (x % 256) + onesBelow (8 * n) (x / 256) := by
  have hmod : onesBelow 8 (x % 256) = onesBelow 8 x := onesBelow_mod 8 x
  rw [Nat.mul_succ, Nat.add_comm, onesBelow_add, hmod]
  rfl

/-- Every byte of the counts holds the number of the ones of that byte. -/
theorem byteCounts_byte (n x i : ℕ) (hi : i < n) :
    byteCounts n x / 2 ^ (8 * i) % 256 = onesBelow 8 (x / 2 ^ (8 * i)) := by
  induction n generalizing x i with
  | zero => exact absurd hi (Nat.not_lt_zero i)
  | succ n ih =>
      have hle := onesBelow_le 8 (x % 256)
      rw [byteCounts_succ]
      cases i with
      | zero =>
          have hmod : onesBelow 8 (x % 256) = onesBelow 8 x := onesBelow_mod 8 x
          rw [hmod] at hle ⊢
          simp only [Nat.mul_zero, Nat.pow_zero, Nat.div_one]
          omega
      | succ i =>
          have hpow : 2 ^ (8 * (i + 1)) = 256 * 2 ^ (8 * i) := by
            rw [Nat.mul_succ, Nat.add_comm, Nat.pow_add]
          have hdiv : (onesBelow 8 (x % 256) + 256 * byteCounts n (x / 256)) / 256 =
              byteCounts n (x / 256) := by omega
          rw [hpow, ← Nat.div_div_eq_div_mul, ← Nat.div_div_eq_div_mul, hdiv]
          exact ih (x / 256) i (Nat.lt_of_succ_lt_succ hi)

/-- Bytes without carries are added by halves. -/
theorem foldedSum {d0 d1 d2 d3 : ℕ} (h0 : d0 ≤ 16) (h1 : d1 ≤ 16) (h2 : d2 ≤ 16) (h3 : d3 ≤ 16) :
    let s := d0 + 256 * (d1 + 256 * (d2 + 256 * d3))
    ((s + s / 2 ^ 16) + (s + s / 2 ^ 16) / 2 ^ 8) % 2 ^ 7 = d0 + d1 + d2 + d3 := by
  intro s
  have hs : s = d0 + 256 * (d1 + 256 * (d2 + 256 * d3)) := rfl
  have hhalf : s / 2 ^ 16 = d2 + 256 * d3 := by omega
  have hquarter : (s + (d2 + 256 * d3)) / 2 ^ 8 =
      (d1 + d3) + 256 * (d2 + 256 * d3) := by omega
  rw [hhalf, hquarter]
  omega

/-- Bytes without carries are added by one multiplication, in its highest byte. -/
theorem multipliedSum {c0 c1 c2 c3 : ℕ} (h0 : c0 ≤ 8) (h1 : c1 ≤ 8) (h2 : c2 ≤ 8) (h3 : c3 ≤ 8) :
    (c0 + 256 * (c1 + 256 * (c2 + 256 * c3))) * 0x01010101 % 2 ^ 32 / 2 ^ 24 =
      c0 + c1 + c2 + c3 := by
  have hcolumns : (c0 + 256 * (c1 + 256 * (c2 + 256 * c3))) * 0x01010101 =
      (c0 + 256 * ((c0 + c1) + 256 * ((c0 + c1 + c2) + 256 * (c0 + c1 + c2 + c3)))) +
        2 ^ 32 * ((c1 + c2 + c3) + 256 * ((c2 + c3) + 256 * c3)) := by
    omega
  rw [hcolumns, Nat.add_mul_mod_self_left, Nat.mod_eq_of_lt (by omega)]
  omega

end Memoria.Lib

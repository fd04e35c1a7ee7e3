import Mathlib.Algebra.BigOperators.Group.List.Basic
import Mathlib.Algebra.Ring.Nat
import Mathlib.Data.List.Nodup
import Mathlib.Order.Lattice
import Mathlib.Order.Nat

/-!
# Sums over buckets of keys

The entries with the keys from `d * i` up to `d * (i + 1)` are those of bucket `i`. A level is the
list of the sums of the buckets of one width, and the level of a multiple of the width is made of
the sums of its groups.
-/

namespace Memoria.Lib

variable {α M : Type}

def bucketSum [AddCommMonoid M] (f : α → M) (entries : List (Nat × α)) (d i : Nat) : M :=
  (entries.map fun e => if e.1 / d = i then f e.2 else 0).sum

def bucketLevel [AddCommMonoid M] (f : α → M) (entries : List (Nat × α)) (d n : Nat) : List M :=
  (List.range n).map (bucketSum f entries d)

def divUp (value divisor : Nat) : Nat :=
  value / divisor + if value % divisor = 0 then 0 else 1

/-- Levels from the widest buckets on. The lowest has width `d`, and each other one `b` times the
width of the one below it. -/
def IsLevels [AddCommMonoid M] (f : α → M) (entries : List (Nat × α)) (d b total : Nat) :
    List (List M) → Prop
  | [] => True
  | level :: levels =>
    level = bucketLevel f entries (d * b ^ levels.length) (divUp total (d * b ^ levels.length)) ∧
      IsLevels f entries d b total levels

def below (entries : List (Nat × α)) (m : Nat) : Nat := entries.countP fun e => e.1 < m

section DivUp

variable {total d b : Nat}

theorem divUp_eq (hd : 0 < d) (total : Nat) : divUp total d = (total + (d - 1)) / d := by
  rw [divUp]
  have hmod := Nat.div_add_mod total d
  split_ifs with h
  · symm
    rw [Nat.div_eq_iff hd, Nat.add_zero, Nat.mul_comm]
    omega
  · have := Nat.mod_lt total hd
    symm
    rw [Nat.div_eq_iff hd, Nat.succ_mul, Nat.mul_comm]
    omega

theorem lt_mul_divUp (hd : 0 < d) {k : Nat} (h : k < total) : k < d * divUp total d := by
  rw [divUp_eq hd]
  have := Nat.lt_mul_div_succ (total + (d - 1)) hd
  rw [Nat.mul_succ] at this
  omega

theorem divUp_le_iff (hd : 0 < d) {n : Nat} : divUp total d ≤ n ↔ total ≤ d * n := by
  rw [divUp_eq hd, ← Nat.lt_succ_iff, Nat.div_lt_iff_lt_mul hd, Nat.succ_mul, Nat.mul_comm n]
  omega

theorem divUp_divUp (hd : 0 < d) (hb : 0 < b) (total : Nat) :
    divUp (divUp total d) b = divUp total (d * b) := by
  refine Nat.le_antisymm ?_ ?_
  · rw [divUp_le_iff hb, divUp_le_iff hd, ← Nat.mul_assoc, ← divUp_le_iff (Nat.mul_pos hd hb)]
  · rw [divUp_le_iff (Nat.mul_pos hd hb), Nat.mul_assoc, ← divUp_le_iff hd, ← divUp_le_iff hb]

end DivUp

section Levels

variable [AddCommMonoid M] (f : α → M) {entries : List (Nat × α)} {d b n i : Nat}

@[simp]
theorem length_bucketLevel : (bucketLevel f entries d n).length = n := by
  simp [bucketLevel]

theorem sum_map_ite_mem {ks : List Nat} (hks : ks.Nodup) (k : Nat) (v : M) :
    (ks.map fun i => if k = i then v else 0).sum = if k ∈ ks then v else 0 := by
  induction ks with
  | nil => rfl
  | cons i ks ih =>
      obtain ⟨hi, hks⟩ := List.nodup_cons.mp hks
      rw [List.map_cons, List.sum_cons, ih hks]
      by_cases hk : k = i
      · subst hk
        simp [hi]
      · simp [hk]

/-- The buckets of a list of numbers, as one. -/
theorem sum_buckets {ks : List Nat} (hks : ks.Nodup) :
    (ks.map (bucketSum f entries d)).sum
      = (entries.map fun e => if e.1 / d ∈ ks then f e.2 else 0).sum := by
  induction entries with
  | nil =>
      have hnil : bucketSum f [] d = fun _ => 0 := rfl
      simp [hnil]
  | cons e entries ih =>
      have hcons : bucketSum f (e :: entries) d
          = fun i => (if e.1 / d = i then f e.2 else 0) + bucketSum f entries d i := rfl
      rw [hcons, List.sum_map_add, sum_map_ite_mem hks, ih, List.map_cons, List.sum_cons]

theorem sum_group (hb : 0 < b) (h : ∀ e ∈ entries, e.1 < d * n) :
    (((bucketLevel f entries d n).drop (i * b)).take b).sum = bucketSum f entries (d * b) i := by
  have hrange : ((List.range n).drop (i * b)).take b = List.range' (i * b) (min b (n - i * b)) := by
    apply List.ext_getElem
    · simp
    · intro k hk hk'
      simp
  rw [bucketLevel, ← List.map_drop, ← List.map_take, hrange, sum_buckets f List.nodup_range']
  refine congrArg List.sum (List.map_congr_left fun e he => ?_)
  have hlt : e.1 / d < n := Nat.div_lt_of_lt_mul (h e he)
  have hiff : e.1 / d ∈ List.range' (i * b) (min b (n - i * b)) ↔ e.1 / (d * b) = i := by
    rw [List.mem_range'_1, ← Nat.div_div_eq_div_mul, Nat.div_eq_iff hb, Nat.mul_comm i b]
    omega
  simp only [hiff]

theorem isLevels_concat (level : List M) (levels : List (List M)) (total : Nat) :
    IsLevels f entries d b total (levels ++ [level]) ↔
      IsLevels f entries (d * b) b total levels ∧
        level = bucketLevel f entries d (divUp total d) := by
  induction levels with
  | nil => simp [IsLevels]
  | cons level' levels ih =>
      have hwidth : d * b ^ (levels ++ [level]).length = d * b * b ^ levels.length := by
        rw [List.length_append, List.length_singleton, Nat.pow_succ, Nat.mul_comm (b ^ _),
          Nat.mul_assoc]
      simp only [List.cons_append, IsLevels, ih, hwidth, and_assoc]

end Levels

section Counts

variable {entries : List (Nat × α)} {d n i m : Nat}

theorem sum_take_counts (hd : 0 < d) (hi : i ≤ n) :
    ((bucketLevel (fun _ => 1) entries d n).take i).sum = below entries (d * i) := by
  have hrange : (List.range n).take i = List.range i := by
    rw [List.take_range, Nat.min_eq_left hi]
  rw [bucketLevel, ← List.map_take, hrange, sum_buckets _ List.nodup_range, below,
    List.countP_eq_length_filter]
  induction entries with
  | nil => rfl
  | cons e entries ih =>
      have hiff : e.1 / d ∈ List.range i ↔ e.1 < d * i := by
        rw [List.mem_range, Nat.div_lt_iff_lt_mul hd, Nat.mul_comm]
      rw [List.map_cons, List.sum_cons, ih]
      by_cases hlt : e.1 < d * i
      · simp only [hiff.mpr hlt, if_true, hlt, decide_true, List.filter_cons_of_pos,
          List.length_cons]
        omega
      · simp [hiff, hlt]

theorem below_of_forall (h : ∀ e ∈ entries, e.1 < m) : below entries m = entries.length := by
  rw [below, List.countP_eq_length]
  exact fun e he => decide_eq_true (h e he)

theorem below_zero : below entries 0 = 0 := by
  simp [below]

theorem sum_countLevel (hd : 0 < d) (h : ∀ e ∈ entries, e.1 < d * n) :
    (bucketLevel (fun _ => 1) entries d n).sum = entries.length := by
  have htake : ((bucketLevel (fun _ => 1) entries d n).take n).sum = below entries (d * n) :=
    sum_take_counts hd (Nat.le_refl n)
  rw [List.take_of_length_le (Nat.le_of_eq (length_bucketLevel _)), below_of_forall h] at htake
  exact htake

/-- In order of their keys, the entries below a bound are the first ones. -/
theorem lt_below_iff (h : entries.Pairwise fun a b => a.1 < b.1) {k : Nat} {e : Nat × α}
    (he : entries[k]? = some e) : k < below entries m ↔ e.1 < m := by
  induction entries generalizing k with
  | nil => cases he
  | cons e₀ entries ih =>
      obtain ⟨hlt, hsorted⟩ := List.pairwise_cons.mp h
      by_cases hm : e₀.1 < m
      · have hbelow : below (e₀ :: entries) m = below entries m + 1 := by
          simp only [below, List.countP_cons, hm, decide_true, if_true]
        rw [hbelow]
        cases k with
        | zero =>
            cases he
            simp [hm]
        | succ k =>
            rw [Nat.add_lt_add_iff_right]
            exact ih hsorted he
      · have hnone : below (e₀ :: entries) m = 0 := by
          rw [below, List.countP_eq_zero]
          intro e' he'
          obtain rfl | he' := List.mem_cons.mp he'
          · exact fun hlt => hm (of_decide_eq_true hlt)
          · have := hlt e' he'
            exact fun hlt => hm (this.trans (of_decide_eq_true hlt))
        have hmem := List.mem_of_getElem? he
        have hge : ¬ e.1 < m := by
          obtain rfl | hmem := List.mem_cons.mp hmem
          · exact hm
          · exact fun hlt' => hm ((hlt e hmem).trans hlt')
        rw [hnone]
        simp [hge]

/-- The first entry of a bucket stands behind all those below it. -/
theorem find_bucket (h : entries.Pairwise fun a b => a.1 < b.1) (hd : 0 < d) {e : Nat × α}
    (he : entries[below entries (d * i)]? = some e) (hlt : e.1 < d * (i + 1)) :
    entries.find? (fun e => e.1 / d = i) = some e := by
  have hge : ¬ e.1 < d * i := by
    rw [← lt_below_iff h he]
    exact Nat.lt_irrefl _
  have hbucket : e.1 / d = i := by
    rw [Nat.mul_comm] at hge
    rw [Nat.mul_comm, Nat.succ_mul] at hlt
    rw [Nat.div_eq_iff hd]
    omega
  obtain ⟨hk, rfl⟩ := List.getElem?_eq_some_iff.mp he
  rw [List.find?_eq_some_iff_getElem]
  refine ⟨decide_eq_true hbucket, _, hk, rfl, fun j hj => ?_⟩
  · have hsmall := (lt_below_iff h (List.getElem?_eq_getElem (hj.trans hk))).mp hj
    have hne : (entries[j]).1 / d < i := Nat.div_lt_of_lt_mul hsmall
    simp only [Bool.not_eq_true', decide_eq_false_iff_not]
    omega

end Counts

end Memoria.Lib

import Mathlib.Algebra.BigOperators.Group.List.Basic
import Mathlib.Algebra.Ring.Nat
import Mathlib.Data.List.Basic
import Mathlib.Order.Lattice

/-!
# Rank and select over a list

`List.count` over a prefix is the rank of a symbol, and `select` is its inverse. A list cut into
blocks of one size can be summed and searched by the counts of its blocks.
-/

namespace Memoria.Lib

variable {α : Type} [DecidableEq α]

/-- The position of the occurrence of `a` that has `k` occurrences before it. -/
def select (a : α) : List α → Nat → Option Nat
  | [], _ => none
  | b :: l, k =>
    if b = a then
      match k with
      | 0 => some 0
      | k + 1 => (select a l k).map (· + 1)
    else (select a l k).map (· + 1)

theorem select_append (a : α) (l m : List α) (k : Nat) :
    select a (l ++ m) k =
      if k < l.count a then select a l k
      else (select a m (k - l.count a)).map (· + l.length) := by
  induction l generalizing k with
  | nil => simp
  | cons b l ih =>
      simp only [List.cons_append, select, List.length_cons, ih]
      by_cases hb : b = a
      · subst hb
        cases k with
        | zero => simp
        | succ k =>
            simp only [if_true, List.count_cons_self, Nat.add_lt_add_iff_right,
              Nat.add_sub_add_right]
            split_ifs
            · rfl
            · rw [Option.map_map]
              congr 1
      · simp only [if_neg hb, List.count_cons_of_ne hb]
        split_ifs
        · rfl
        · rw [Option.map_map]
          congr 1

theorem select_eq_none_iff {a : α} {l : List α} {k : Nat} : select a l k = none ↔ l.count a ≤ k := by
  induction l generalizing k with
  | nil => simp [select]
  | cons b l ih =>
      by_cases hb : b = a
      · subst hb
        cases k with
        | zero => simp [select]
        | succ k => simp [select, ih]
      · simp [select, if_neg hb, ih, List.count_cons_of_ne hb]

theorem lt_length_of_select {a : α} {l : List α} {k i : Nat} (h : select a l k = some i) :
    i < l.length := by
  induction l generalizing k i with
  | nil => cases h
  | cons b l ih =>
      have hmap : ∀ {k}, (select a l k).map (· + 1) = some i → i < (b :: l).length := by
        intro k hk
        obtain ⟨j, hj, rfl⟩ := Option.map_eq_some_iff.mp hk
        exact Nat.succ_lt_succ (ih hj)
      by_cases hb : b = a
      · cases k with
        | zero =>
            have hi : i = 0 := by simpa [select, hb] using h.symm
            simp [hi]
        | succ k => exact hmap (by simpa [select, hb] using h)
      · exact hmap (k := k) (by simpa [select, hb] using h)

/-- The occurrence at a position is the one with its rank. -/
theorem select_count_take {a : α} {l : List α} {i : Nat} (h : l[i]? = some a) :
    select a l ((l.take i).count a) = some i := by
  induction l generalizing i with
  | nil => cases h
  | cons b l ih =>
      cases i with
      | zero =>
          have hb : b = a := by simpa using h
          simp [select, hb]
      | succ i =>
          have hi := ih (show l[i]? = some a by simpa using h)
          by_cases hb : b = a
          · subst hb
            simp [select, hi]
          · simp [select, hb, hi]

theorem select_eq_some_iff {a : α} {l : List α} {k i : Nat} :
    select a l k = some i ↔ l[i]? = some a ∧ (l.take i).count a = k := by
  constructor
  · intro h
    induction l generalizing k i with
    | nil => cases h
    | cons b l ih =>
        simp only [select] at h
        split_ifs at h with hb
        · cases k with
          | zero =>
              obtain rfl := Option.some.inj h
              exact ⟨by rw [List.getElem?_cons_zero, hb], by rw [List.take_zero, List.count_nil]⟩
          | succ k =>
              obtain ⟨j, hj, rfl⟩ := Option.map_eq_some_iff.mp h
              obtain ⟨hget, hcount⟩ := ih hj
              refine ⟨by rwa [List.getElem?_cons_succ], ?_⟩
              rw [List.take_succ_cons, hb, List.count_cons_self, hcount]
        · obtain ⟨j, hj, rfl⟩ := Option.map_eq_some_iff.mp h
          obtain ⟨hget, hcount⟩ := ih hj
          refine ⟨by rwa [List.getElem?_cons_succ], ?_⟩
          rw [List.take_succ_cons, List.count_cons_of_ne hb, hcount]
  · rintro ⟨hget, rfl⟩
    exact select_count_take hget

/-- Counted from the end, an occurrence has the occurrences behind it in front. -/
theorem select_reverse {a : α} {l : List α} {k : Nat} (hk : k < l.count a) :
    (select a l.reverse k).map (fun i => l.length - 1 - i) = select a l (l.count a - 1 - k) := by
  have hsome : select a l (l.count a - 1 - k) ≠ none := by
    rw [Ne, select_eq_none_iff]
    omega
  obtain ⟨i, hi⟩ := Option.ne_none_iff_exists'.mp hsome
  have hlt := lt_length_of_select hi
  obtain ⟨hget, hcount⟩ := select_eq_some_iff.mp hi
  have hpast : l.length - (l.length - 1 - i) = i + 1 := by omega
  have hback : select a l.reverse k = some (l.length - 1 - i) := by
    rw [select_eq_some_iff, List.getElem?_reverse (by omega), List.take_reverse,
      List.count_reverse, hpast, Nat.sub_sub_self (by omega)]
    refine ⟨hget, ?_⟩
    have htotal : (l.take (i + 1) ++ l.drop (i + 1)).count a = _ := List.count_append
    rw [List.take_append_drop, List.take_add_one, hget, List.count_append, Option.toList_some,
      List.count_singleton_self, hcount] at htotal
    omega
  rw [hback, hi, Option.map_some, Nat.sub_sub_self (by omega)]

/-- The position of the first element below `a`, or of the occurrence of `a` that has `k` occurrences
before it. -/
def selectGe [LT α] [DecidableLT α] (a : α) : List α → Nat → Option Nat
  | [], _ => none
  | b :: l, k =>
    if b < a then some 0
    else if b = a then
      match k with
      | 0 => some 0
      | k + 1 => (selectGe a l k).map (· + 1)
    else (selectGe a l k).map (· + 1)

section Positions

def rankOf (p : Nat → Bool) (n : Nat) : Nat := (List.range n).countP p

/-- The position below `n` that satisfies `p` and has `k` such positions before it. -/
def selectOf (p : Nat → Bool) (n k : Nat) : Option Nat := select true ((List.range n).map p) k

variable {p q : Nat → Bool} {n k : Nat}

theorem count_map_range (p : Nat → Bool) (n : Nat) :
    ((List.range n).map p).count true = rankOf p n := by
  rw [List.count_eq_countP, List.countP_map]
  apply List.countP_congr
  intro i _
  rw [Function.comp_apply, beq_true]

theorem rankOf_le (p : Nat → Bool) (n : Nat) : rankOf p n ≤ n := by
  calc rankOf p n ≤ (List.range n).length := List.countP_le_length
    _ = n := List.length_range

theorem rankOf_add (p : Nat → Bool) (m n : Nat) :
    rankOf p (m + n) = rankOf p m + rankOf (fun i => p (m + i)) n := by
  rw [rankOf, List.range_add, List.countP_append, List.countP_map]
  rfl

theorem rankOf_succ (p : Nat → Bool) (n : Nat) :
    rankOf p (n + 1) = (p 0).toNat + rankOf (fun i => p (i + 1)) n := by
  have hone : rankOf p 1 = (p 0).toNat := by
    cases h : p 0 <;> simp [rankOf, List.range_succ, h]
  rw [Nat.add_comm n, rankOf_add, hone]
  simp only [Nat.add_comm 1]

theorem selectOf_add (p : Nat → Bool) (m n k : Nat) :
    selectOf p (m + n) k =
      if k < rankOf p m then selectOf p m k
      else (selectOf (fun i => p (m + i)) n (k - rankOf p m)).map (· + m) := by
  rw [selectOf, List.range_add, List.map_append, select_append, count_map_range, List.length_map,
    List.length_range, List.map_map]
  rfl

theorem selectOf_eq_none_iff : selectOf p n k = none ↔ rankOf p n ≤ k := by
  rw [selectOf, select_eq_none_iff, count_map_range]

theorem lt_of_selectOf {i : Nat} (h : selectOf p n k = some i) : i < n := by
  have hlt := lt_length_of_select h
  rwa [List.length_map, List.length_range] at hlt

theorem rankOf_congr (h : ∀ i < n, p i = q i) : rankOf p n = rankOf q n := by
  apply List.countP_congr
  intro i hi
  rw [h i (List.mem_range.mp hi)]

theorem selectOf_congr (h : ∀ i < n, p i = q i) : selectOf p n k = selectOf q n k := by
  have hmap : (List.range n).map p = (List.range n).map q := by
    apply List.map_congr_left
    intro i hi
    exact h i (List.mem_range.mp hi)
  rw [selectOf, hmap, selectOf]

theorem rankOf_eq_zero (h : ∀ i < n, p i = false) : rankOf p n = 0 := by
  apply List.countP_eq_zero.mpr
  intro i hi
  rw [h i (List.mem_range.mp hi)]
  exact Bool.false_ne_true

/-- Positions that satisfy nothing may follow. -/
theorem rankOf_of_clear {m : Nat} (hm : m ≤ n) (h : ∀ i, m ≤ i → i < n → p i = false) :
    rankOf p n = rankOf p m := by
  obtain ⟨d, rfl⟩ := Nat.exists_eq_add_of_le hm
  rw [rankOf_add, rankOf_eq_zero fun i hi => h (m + i) (by omega) (by omega), Nat.add_zero]

theorem selectOf_of_clear {m : Nat} (hm : m ≤ n) (h : ∀ i, m ≤ i → i < n → p i = false) :
    selectOf p n k = selectOf p m k := by
  obtain ⟨d, rfl⟩ := Nat.exists_eq_add_of_le hm
  rw [selectOf_add]
  split_ifs with hk
  · rfl
  · have hzero := rankOf_eq_zero (p := fun i => p (m + i)) fun i hi =>
      h (m + i) (by omega) (Nat.add_lt_add_left hi m)
    rw [selectOf_eq_none_iff.mpr (by omega), selectOf_eq_none_iff.mpr (by omega), Option.map_none]

theorem select_eq_selectOf (b : Bool) (f : Nat → Bool) (n k : Nat) :
    select b ((List.range n).map f) k = selectOf (fun i => f i == b) n k := by
  rw [selectOf]
  generalize List.range n = l
  induction l generalizing k with
  | nil => rfl
  | cons i l ih =>
      cases k with
      | zero => simp [select, ih]
      | succ k => simp [select, ih]

theorem count_eq_rankOf (b : Bool) (f : Nat → Bool) (n : Nat) :
    ((List.range n).map f).count b = rankOf (fun i => f i == b) n := by
  rw [List.count_eq_countP, List.countP_map]
  rfl

/-! What a search for the position ends with: the position, or the count of a search in vain. -/

variable {α β : Type} {hit miss : Nat → α}

def report (p : Nat → Bool) (n k : Nat) (hit miss : Nat → α) : α :=
  (selectOf p n k).elim (miss (rankOf p n)) hit

theorem report_miss (h : rankOf p n ≤ k) : report p n k hit miss = miss (rankOf p n) := by
  rw [report, selectOf_eq_none_iff.mpr h, Option.elim_none]

theorem report_hit (h : k < rankOf p n) : ∃ i < n, ∀ {α : Type} {hit miss : Nat → α},
    report p n k hit miss = hit i := by
  cases hfound : selectOf p n k with
  | none => exact absurd (selectOf_eq_none_iff.mp hfound) (Nat.not_le_of_lt h)
  | some i =>
      refine ⟨i, lt_of_selectOf hfound, ?_⟩
      intro α hit miss
      rw [report, hfound, Option.elim_some]

theorem report_map (f : α → β) :
    f (report p n k hit miss) = report p n k (fun i => f (hit i)) (fun c => f (miss c)) := by
  rw [report, report]
  cases selectOf p n k <;> rfl

theorem report_congr {hit' miss' : Nat → α} (hp : ∀ i < n, p i = q i)
    (hhit : ∀ i < n, hit i = hit' i) (hmiss : ∀ c ≤ n, miss c = miss' c) :
    report p n k hit miss = report q n k hit' miss' := by
  rw [report, report, selectOf_congr hp, rankOf_congr hp, hmiss _ (rankOf_le q n)]
  cases hfound : selectOf q n k with
  | none => rfl
  | some i => exact hhit i (lt_of_selectOf hfound)

/-- A search over two pieces. -/
theorem report_add (p : Nat → Bool) (m n k : Nat) :
    report p (m + n) k hit miss =
      if k < rankOf p m then report p m k hit miss
      else report (fun i => p (m + i)) n (k - rankOf p m) (fun i => hit (m + i))
        (fun c => miss (rankOf p m + c)) := by
  rw [report, report, report, selectOf_add, rankOf_add]
  split_ifs with hk
  · cases hfound : selectOf p m k with
    | none => exact absurd (selectOf_eq_none_iff.mp hfound) (Nat.not_le_of_lt hk)
    | some i => rfl
  · rw [Option.elim_map]
    simp only [Function.comp_def, Nat.add_comm m]

theorem report_of_clear {m : Nat} (hm : m ≤ n) (h : ∀ i, m ≤ i → i < n → p i = false) :
    report p n k hit miss = report p m k hit miss := by
  rw [report, report, selectOf_of_clear hm h, rankOf_of_clear hm h]

theorem report_of_clear_before {m : Nat} (h : ∀ i < m, p i = false) :
    report p (m + n) k hit miss =
      report (fun i => p (m + i)) n k (fun i => hit (m + i)) miss := by
  rw [report_add, rankOf_eq_zero h, if_neg (Nat.not_lt_zero k), Nat.sub_zero]
  simp only [Nat.zero_add]

/-- A count does not depend on the direction. -/
theorem rankOf_reverse (p : Nat → Bool) (n : Nat) :
    rankOf (fun i => p (n - 1 - i)) n = rankOf p n := by
  have hreverse : (List.range n).map (n - 1 - ·) = (List.range n).reverse := by
    rw [List.range_eq_range', List.reverse_range', Nat.zero_add, List.range_eq_range']
  have hcount := List.countP_map (p := p) (f := (n - 1 - ·)) (l := List.range n)
  rw [hreverse, List.countP_reverse] at hcount
  exact hcount.symm

end Positions

def blockCounts (n : Nat) (a : α) (l : List α) : List Nat :=
  (List.range ((l.length + n - 1) / n)).map fun b => ((l.drop (b * n)).take n).count a

variable {n : Nat} {a : α}

theorem sum_counts (n : Nat) (a : α) (l : List α) (b : Nat) :
    ((List.range b).map fun i => ((l.drop (i * n)).take n).count a).sum
      = (l.take (b * n)).count a := by
  induction b with
  | zero => simp
  | succ b ih =>
      rw [List.range_succ, List.map_append, List.sum_append, ih, Nat.succ_mul, List.take_add,
        List.count_append]
      simp

theorem sum_take_blockCounts (hn : 0 < n) {l : List α} {b : Nat} (hb : b * n ≤ l.length) :
    ((blockCounts n a l).take b).sum = (l.take (b * n)).count a := by
  have hle : b ≤ (l.length + n - 1) / n := by
    rw [Nat.le_div_iff_mul_le hn]
    omega
  rw [blockCounts, ← List.map_take, List.take_range, Nat.min_eq_left hle, sum_counts]

/-- The rank of a position from the counts of the blocks before it. -/
theorem count_take_eq_blocks (hn : 0 < n) {l : List α} {i : Nat} (hi : i ≤ l.length) :
    (l.take i).count a = ((blockCounts n a l).take (i / n)).sum
      + ((l.drop (i / n * n)).take (i - i / n * n)).count a := by
  have hle : i / n * n ≤ i := Nat.div_mul_le_self i n
  rw [sum_take_blockCounts hn (Nat.le_trans hle hi), ← List.count_append, ← List.take_add,
    Nat.add_sub_cancel' hle]

theorem blockCounts_nil (hn : 0 < n) : blockCounts n a [] = [] := by
  have hzero : (0 + n - 1) / n = 0 := Nat.div_eq_of_lt (by omega)
  rw [blockCounts, List.length_nil, hzero]
  rfl

theorem blockCounts_of_ne_nil (hn : 0 < n) {l : List α} (hl : l ≠ []) :
    blockCounts n a l = (l.take n).count a :: blockCounts n a (l.drop n) := by
  have hpos := List.length_pos_iff.mpr hl
  have hblocks : (l.length + n - 1) / n = ((l.drop n).length + n - 1) / n + 1 := by
    rw [List.length_drop]
    by_cases hlt : n ≤ l.length
    · rw [show l.length + n - 1 = (l.length - n + n - 1) + n by omega, Nat.add_div_right _ hn]
    · rw [show l.length + n - 1 = (l.length - 1) + n by omega, Nat.add_div_right _ hn,
        Nat.div_eq_of_lt (show l.length - 1 < n by omega),
        Nat.div_eq_of_lt (show l.length - n + n - 1 < n by omega)]
  rw [blockCounts, hblocks, List.range_succ_eq_map, List.map_cons, List.map_map]
  simp only [Nat.zero_mul, List.drop_zero, List.cons.injEq, true_and, blockCounts]
  apply List.map_congr_left
  intro b _
  simp only [Function.comp_apply, List.drop_drop, Nat.succ_mul, Nat.add_comm n]

def findGE : List Nat → Nat → Nat × Nat
  | [], _ => (0, 0)
  | c :: counts, rank =>
    if rank ≤ c then (0, 0)
    else ((findGE counts (rank - c)).1 + 1, (findGE counts (rank - c)).2 + c)

/-- The search for an occurrence starts at the block that the counts name. -/
theorem select_eq_blocks (hn : 0 < n) (l : List α) (k : Nat) :
    select a l k =
      if (findGE (blockCounts n a l) (k + 1)).1 < (blockCounts n a l).length then
        (select a (l.drop ((findGE (blockCounts n a l) (k + 1)).1 * n))
            (k - (findGE (blockCounts n a l) (k + 1)).2)).map
          (· + (findGE (blockCounts n a l) (k + 1)).1 * n)
      else none := by
  induction hlen : l.length using Nat.strongRecOn generalizing l k with
  | ind len ih =>
      by_cases hl : l = []
      · subst hl
        simp [blockCounts_nil hn, select]
      · have hpos := List.length_pos_iff.mpr hl
        have hsplit := select_append a (l.take n) (l.drop n) k
        rw [List.take_append_drop] at hsplit
        rw [blockCounts_of_ne_nil hn hl, findGE]
        by_cases hk : k + 1 ≤ (l.take n).count a
        · rw [if_pos hk]
          simp
        · have hdrop := ih (l.drop n).length (by rw [List.length_drop]; omega) (l.drop n)
            (k - (l.take n).count a) rfl
          rw [if_neg (by omega), hdrop] at hsplit
          rw [hsplit, if_neg hk, Nat.sub_add_comm (by omega)]
          generalize findGE (blockCounts n a (l.drop n)) (k - (l.take n).count a + 1) = found
          simp only [List.length_cons, Nat.add_lt_add_iff_right, List.drop_drop]
          split_ifs with hfound
          · have hlong : n ≤ l.length := by
              by_contra hshort
              rw [List.drop_eq_nil_of_le (by omega), blockCounts_nil hn] at hfound
              simp at hfound
            rw [Option.map_map, List.length_take, Nat.min_eq_left hlong, Nat.add_one_mul,
              Nat.add_comm n, Nat.sub_sub, Nat.add_comm found.2]
            congr 1
            funext i
            simp only [Function.comp_apply]
            omega
          · rfl

end Memoria.Lib

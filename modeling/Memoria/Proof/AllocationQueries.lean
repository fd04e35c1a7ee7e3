import Memoria.AllocationQueries
import Memoria.Proof.PkdAllocationMap

/-!
# When the queries of an allocation map agree with its bitmaps

Sums and ranks are right wherever the level has the index they read. A search through an index is
never right when it finds something: it looks for the full rank behind the blocks it has passed,
and adds the sum of these blocks, the one it has stopped at included. A count is right unless the
level ends inside a word and no bit of it is set before its end.
-/

namespace Memoria

open Lib

namespace Bitmap

variable {bitmap : Bitmap} {start stop mid : ℕ}

theorem bits_append (bitmap : Bitmap) (start a b : ℕ) :
    bitmap.bits start (a + b) = bitmap.bits start a ++ bitmap.bits (start + a) b := by
  simp only [bits, ← List.map_append]
  congr 1
  simp

@[simp] theorem length_bits (bitmap : Bitmap) (start n : ℕ) : (bitmap.bits start n).length = n := by
  simp [bits]

@[simp] theorem bits_zero (bitmap : Bitmap) (start : ℕ) : bitmap.bits start 0 = [] := rfl

theorem zeroes_eq_countP (bitmap : Bitmap) (start stop : ℕ) :
    bitmap.zeroes start stop = (List.range' start (stop - start)).countP fun i => !bitmap i := by
  rw [zeroes, bits, List.count, List.countP_map]
  congr 1
  funext i
  cases h : bitmap i <;> simp [h]

theorem zeroes_eq_sub_popCount (bitmap : Bitmap) (start stop : ℕ) :
    (stop - start) - bitmap.popCount start stop = bitmap.zeroes start stop := by
  have hlen := List.length_eq_countP_add_countP bitmap (l := List.range' start (stop - start))
  rw [List.length_range'] at hlen
  rw [zeroes_eq_countP, popCount]
  have hnot : (List.range' start (stop - start)).countP (fun i => !bitmap i) =
      (List.range' start (stop - start)).countP (fun a => decide ¬ bitmap a = true) := by
    congr 1
    funext i
    cases bitmap i <;> rfl
  rw [hnot]
  omega

theorem zeroes_add (hstart : start ≤ mid) (hstop : mid ≤ stop) :
    bitmap.zeroes start stop = bitmap.zeroes start mid + bitmap.zeroes mid stop := by
  obtain ⟨a, rfl⟩ := Nat.exists_eq_add_of_le hstart
  obtain ⟨b, rfl⟩ := Nat.exists_eq_add_of_le hstop
  have hab : start + a + b - start = a + b := by omega
  have hb : start + a + b - (start + a) = b := by omega
  have ha : start + a - start = a := by omega
  rw [zeroes, zeroes, zeroes, hab, hb, ha, bits_append, List.count_append]

@[simp] theorem zeroes_self (bitmap : Bitmap) (start : ℕ) : bitmap.zeroes start start = 0 := by
  simp [zeroes]

theorem zeroes_of_le (h : stop ≤ start) : bitmap.zeroes start stop = 0 := by
  rw [zeroes, Nat.sub_eq_zero_of_le h, bits_zero, List.count_nil]

def Clear (bitmap : Bitmap) (start stop : ℕ) : Prop :=
  ∀ i, start ≤ i → i < stop → bitmap i = false

theorem zeroes_eq_iff_clear : bitmap.zeroes start stop = stop - start ↔ bitmap.Clear start stop := by
  have hall := List.count_eq_length (a := false) (l := bitmap.bits start (stop - start))
  rw [length_bits] at hall
  rw [zeroes, hall]
  constructor
  · intro h i hi hlt
    refine (h _ ?_).symm
    exact List.mem_map.mpr ⟨i, List.mem_range'_1.mpr ⟨hi, by omega⟩, rfl⟩
  · intro h bit hbit
    obtain ⟨i, hi, rfl⟩ := List.mem_map.mp hbit
    have hrange := List.mem_range'_1.mp hi
    exact (h i hrange.1 (by omega)).symm

theorem selectFW_eq_select {rank : ℕ} (word : List Bool) (d : ℕ) {r : ℕ} (hr : r < rank) :
    selectFW rank word d r = (select false word (rank - r - 1)).map (d + ·) := by
  induction word generalizing d r with
  | nil => rfl
  | cons bit word ih =>
      cases bit with
      | true =>
          have hne : ¬ r = rank := by omega
          simp only [selectFW, select, if_true, Nat.add_zero, if_neg hne, ih _ hr, Option.map_map,
            Bool.true_eq_false, if_false]
          congr 1
          funext i
          simp only [Function.comp_apply]
          omega
      | false =>
          simp only [selectFW, select, Bool.false_eq_true, if_false, if_true]
          by_cases heq : r + 1 = rank
          · have hzero : rank - r - 1 = 0 := by omega
            rw [if_pos heq, hzero]
            rfl
          · have hsucc : rank - r - 1 = rank - (r + 1) - 1 + 1 := by omega
            rw [if_neg heq, ih _ (by omega), hsucc]
            simp only [Option.map_map]
            congr 1
            funext i
            simp only [Function.comp_apply]
            omega

def Adjacent (stop : ℕ) : ℕ → List (ℕ × ℕ) → Prop
  | start, [] => start = stop
  | start, (first, length) :: rest => first = start ∧ Adjacent stop (start + length) rest

theorem Adjacent.le {start : ℕ} {words : List (ℕ × ℕ)} (h : Adjacent stop start words) :
    start ≤ stop := by
  induction words generalizing start with
  | nil => exact Nat.le_of_eq h
  | cons word words ih => exact (Nat.le_add_right _ _).trans (ih h.2)

theorem adjacent_words (cell n : ℕ) {rest : List (ℕ × ℕ)}
    (h : Adjacent stop (64 * (cell + n)) rest) :
    Adjacent stop (64 * cell)
      ((List.range' cell n).map (fun cell => (64 * cell, 64)) ++ rest) := by
  induction n generalizing cell with
  | zero => exact h
  | succ n ih =>
      rw [List.range'_succ, List.map_cons, List.cons_append]
      have hnext : 64 * cell + 64 = 64 * (cell + 1) := by omega
      refine ⟨rfl, ?_⟩
      rw [hnext]
      apply ih
      rwa [show cell + 1 + n = cell + (n + 1) by omega]

theorem adjacent_cells (h : start ≤ stop) : Adjacent stop start (cells start stop) := by
  rw [cells]
  split_ifs with hone hsuffix
  · exact ⟨rfl, Nat.add_sub_cancel' h⟩
  · refine ⟨rfl, ?_⟩
    have hword : start + (64 - start % 64) = 64 * ((start + (64 - start % 64)) / 64) := by omega
    rw [hword, Nat.mul_div_cancel_left _ (by decide)]
    apply adjacent_words
    refine ⟨by omega, ?_⟩
    change _ = stop
    omega
  · refine ⟨rfl, ?_⟩
    have hword : start + (64 - start % 64) = 64 * ((start + (64 - start % 64)) / 64) := by omega
    rw [hword, Nat.mul_div_cancel_left _ (by decide)]
    apply adjacent_words
    change _ = stop
    omega

theorem selectCells_eq {rank : ℕ} {words : List (ℕ × ℕ)} (h : Adjacent stop start words)
    {total : ℕ} (ht : total < rank) :
    selectCells bitmap stop rank words total =
      match select false (bitmap.bits start (stop - start)) (rank - total - 1) with
      | some d => ⟨start + d, rank, true⟩
      | none => ⟨stop, (total + bitmap.zeroes start stop : ℕ), false⟩ := by
  induction words generalizing start total with
  | nil =>
      have heq : start = stop := h
      subst heq
      simp [selectCells, select]
  | cons word words ih =>
      obtain ⟨first, length⟩ := word
      obtain ⟨rfl, hrest⟩ := h
      have hle := hrest.le
      have hsplit : bitmap.bits first (stop - first) =
          bitmap.bits first length ++ bitmap.bits (first + length) (stop - (first + length)) := by
        rw [← bits_append]
        congr 1
        omega
      have hword : bitmap.zeroes first (first + length) =
          (bitmap.bits first length).count false := by
        rw [zeroes, Nat.add_sub_cancel_left]
      rw [selectCells, selectFW_eq_select _ _ (by omega), hsplit, select_append, length_bits]
      by_cases hk : rank - total - 1 < (bitmap.bits first length).count false
      · rw [if_pos hk]
        cases hsel : select false (bitmap.bits first length) (rank - total - 1) with
        | none => exact absurd (select_eq_none_iff.mp hsel) (by omega)
        | some d => simp
      · have hnone : select false (bitmap.bits first length) (rank - total - 1) = none :=
          select_eq_none_iff.mpr (by omega)
        rw [if_neg hk, Nat.sub_zero, hnone]
        simp only [Option.map_none]
        rw [ih hrest (by omega), zeroes_add (Nat.le_add_right first length) hle, hword]
        have hrank : rank - (total + (bitmap.bits first length).count false) - 1 =
            rank - total - 1 - (bitmap.bits first length).count false := by omega
        rw [hrank]
        cases select false (bitmap.bits (first + length) (stop - (first + length)))
            (rank - total - 1 - (bitmap.bits first length).count false) with
        | none => simp [Nat.add_assoc]
        | some d => simp [Nat.add_assoc, Nat.add_comm length]

section Scan

variable {rank : ℕ}

theorem scanSelect_none (hr : 1 ≤ rank) (h : bitmap.zeroes start stop < rank) :
    bitmap.scanSelect start stop rank = ⟨stop, bitmap.zeroes start stop, false⟩ := by
  have hnone : select false (bitmap.bits start (stop - start)) (rank - 1) = none :=
    select_eq_none_iff.mpr (show bitmap.zeroes start stop ≤ rank - 1 by omega)
  rw [scanSelect, hnone]

theorem scanSelect_some (hr : 1 ≤ rank) (h : rank ≤ bitmap.zeroes start stop) :
    ∃ d, start + d < stop ∧ bitmap.scanSelect start stop rank = ⟨start + d, rank, true⟩ := by
  cases hsel : select false (bitmap.bits start (stop - start)) (rank - 1) with
  | none =>
      have hle : bitmap.zeroes start stop ≤ rank - 1 := select_eq_none_iff.mp hsel
      omega
  | some d =>
      have hlt := lt_length_of_select hsel
      rw [length_bits] at hlt
      refine ⟨d, by omega, ?_⟩
      rw [scanSelect, hsel]

theorem scanSelect_found (hr : 1 ≤ rank) :
    (bitmap.scanSelect start stop rank).found =
      decide ((bitmap.scanSelect start stop rank).pos < stop) := by
  by_cases hmore : bitmap.zeroes start stop < rank
  · rw [scanSelect_none hr hmore]
    simp
  · obtain ⟨d, hd, hscan⟩ := scanSelect_some hr (Nat.le_of_not_lt hmore)
    rw [hscan]
    simp [hd]

/-- A scan from the first bit on for a rank beyond those before `start` is a scan from `start` on. -/
theorem scanSelect_shift (hr : 1 ≤ rank) (h : start ≤ stop) :
    bitmap.scanSelect 0 stop (bitmap.zeroes 0 start + rank) =
      { bitmap.scanSelect start stop rank with
        rank := (bitmap.scanSelect start stop rank).rank + bitmap.zeroes 0 start } := by
  have htotal : bitmap.zeroes 0 stop = bitmap.zeroes 0 start + bitmap.zeroes start stop :=
    zeroes_add (Nat.zero_le _) h
  have hbits : bitmap.bits 0 (stop - 0) = bitmap.bits 0 start ++ bitmap.bits start (stop - start) := by
    have happ := bits_append bitmap 0 start (stop - start)
    rwa [Nat.zero_add, show start + (stop - start) = stop - 0 by omega] at happ
  have hcount : (bitmap.bits 0 start).count false = bitmap.zeroes 0 start := by
    rw [zeroes, Nat.sub_zero]
  have hrank : bitmap.zeroes 0 start + rank - 1 - bitmap.zeroes 0 start = rank - 1 := by omega
  rw [scanSelect, hbits, select_append, hcount, if_neg (by omega), hrank, length_bits, scanSelect]
  cases select false (bitmap.bits start (stop - start)) (rank - 1) with
  | none =>
      simp only [Option.map_none, htotal]
      rw [Nat.cast_add, add_comm]
  | some d =>
      simp only [Option.map_some, Nat.cast_add, Nat.zero_add]
      rw [add_comm d, add_comm (rank : ℤ)]

end Scan

theorem select0FW_eq {rank : ℕ} (h : start ≤ stop) (hr : 1 ≤ rank) :
    bitmap.select0FW start stop rank = bitmap.scanSelect start stop rank := by
  cases hselect : select false (bitmap.bits start (stop - start)) (rank - 1) <;>
    simp only [select0FW, selectCells_eq (adjacent_cells h) hr, scanSelect, Nat.sub_zero,
      Nat.zero_add, hselect]

theorem select0FW_of_le {rank : ℕ} (h : stop ≤ start) :
    bitmap.select0FW start stop rank = ⟨stop, 0, false⟩ := by
  have hword : cells start stop = [(start, 0)] := by
    rw [cells, if_pos (by omega), Nat.sub_eq_zero_of_le h]
  rw [select0FW, hword]
  simp [selectCells, selectFW]

/-- A search that finds a bit gives back the rank, and one that does not ends at the end. -/
theorem select0FW_cases (bitmap : Bitmap) (start stop : ℕ) {rank : ℕ} (hr : 1 ≤ rank) :
    (bitmap.select0FW start stop rank).rank = rank ∨
      (bitmap.select0FW start stop rank).pos = stop := by
  by_cases hle : stop ≤ start
  · right
    rw [select0FW_of_le hle]
  · rw [select0FW_eq (by omega) hr]
    by_cases hmore : bitmap.zeroes start stop < rank
    · right
      rw [scanSelect_none hr hmore]
    · left
      obtain ⟨d, -, hscan⟩ := scanSelect_some hr (Nat.le_of_not_lt hmore)
      rw [hscan]

theorem scanCount_succ (h : start < stop) :
    bitmap.scanCount start stop =
      if bitmap start then 0 else bitmap.scanCount (start + 1) stop + 1 := by
  have hlen : stop - start = stop - (start + 1) + 1 := by omega
  rw [scanCount, scanCount, hlen, bits, List.range'_succ, List.map_cons, List.takeWhile_cons]
  cases bitmap start <;> simp [bits]

@[simp] theorem scanCount_self (bitmap : Bitmap) (start : ℕ) : bitmap.scanCount start start = 0 := by
  simp [scanCount]

/-- The scan stops at the first set bit. -/
theorem scanCount_of_set {q : ℕ} (hstart : start ≤ q) (hstop : q < stop)
    (hclear : bitmap.Clear start q) (hset : bitmap q = true) :
    bitmap.scanCount start stop = q - start := by
  obtain ⟨n, rfl⟩ := Nat.exists_eq_add_of_le hstart
  induction n generalizing start with
  | zero =>
      rw [Nat.add_zero] at hset hstop
      rw [scanCount_succ hstop, if_pos hset]
      omega
  | succ n ih =>
      have hfirst : bitmap start = false := hclear start (by omega) (by omega)
      have hq : start + (n + 1) = start + 1 + n := by omega
      rw [hq] at hset hstop hclear
      rw [scanCount_succ (by omega), hfirst, if_neg (by decide),
        ih (by omega) hstop (fun i hi hlt => hclear i (by omega) hlt) hset]
      omega

/-- The scan runs through clear bits. -/
theorem scanCount_of_clear (hstart : start ≤ mid) (hstop : mid ≤ stop)
    (hclear : bitmap.Clear start mid) :
    bitmap.scanCount start stop = mid - start + bitmap.scanCount mid stop := by
  obtain ⟨n, rfl⟩ := Nat.exists_eq_add_of_le hstart
  induction n generalizing start with
  | zero => simp
  | succ n ih =>
      have hfirst : bitmap start = false := hclear start (by omega) (by omega)
      have hmid : start + (n + 1) = start + 1 + n := by omega
      rw [hmid] at hstop hclear ⊢
      rw [scanCount_succ (by omega), hfirst, if_neg (by decide),
        ih (by omega) hstop (fun i hi hlt => hclear i (by omega) hlt)]
      omega

theorem clear_or_first_set (bitmap : Bitmap) (start stop : ℕ) :
    bitmap.Clear start stop ∨
      ∃ q, start ≤ q ∧ q < stop ∧ bitmap.Clear start q ∧ bitmap q = true := by
  by_cases hclear : bitmap.Clear start stop
  · exact Or.inl hclear
  · right
    have hex : ∃ q, start ≤ q ∧ q < stop ∧ bitmap q = true := by
      simpa [Clear] using hclear
    refine ⟨Nat.find hex, (Nat.find_spec hex).1, (Nat.find_spec hex).2.1, ?_,
      (Nat.find_spec hex).2.2⟩
    intro i hi hlt
    have hmin := Nat.find_min hex hlt
    have hstop := (Nat.find_spec hex).2.1
    cases hbit : bitmap i with
    | false => rfl
    | true => exact absurd ⟨hi, hlt.trans hstop, hbit⟩ hmin

theorem trailingZeroes_of_clear {cell shift : ℕ}
    (h : bitmap.Clear (64 * cell + shift) (64 * cell + 64)) :
    bitmap.trailingZeroes cell shift = none := by
  rw [trailingZeroes, List.find?_eq_none]
  intro d hd
  have hlt := List.mem_range.mp hd
  simp [h (64 * cell + shift + d) (by omega) (by omega)]

theorem trailingZeroes_of_set {cell shift q : ℕ} (hq : 64 * cell + shift ≤ q)
    (hlt : q < 64 * cell + 64) (hclear : bitmap.Clear (64 * cell + shift) q)
    (hset : bitmap q = true) :
    bitmap.trailingZeroes cell shift = some (q - (64 * cell + shift)) := by
  rw [trailingZeroes, List.find?_range_eq_some]
  have hpos : 64 * cell + shift + (q - (64 * cell + shift)) = q := by omega
  refine ⟨by rw [hpos]; exact hset, List.mem_range.mpr (by omega), ?_⟩
  intro d hd
  simp [hclear (64 * cell + shift + d) (by omega) (by omega)]

def wordsEnd (limit : ℕ) : ℕ :=
  if limit % 64 = 0 then limit else 64 * (limit / 64) + 64

theorem countCells_of_set {limit q : ℕ} (n cell shift length : ℕ) (hcell : cell + n = limit / 64)
    (hshift : shift ≤ 64) (hq : 64 * cell + shift ≤ q) (hlt : q < wordsEnd limit)
    (hclear : bitmap.Clear (64 * cell + shift) q) (hset : bitmap q = true) :
    bitmap.countCells limit n cell shift length = length + (q - (64 * cell + shift)) := by
  induction n generalizing cell shift length with
  | zero =>
      have hword : q < 64 * cell + 64 ∧ 0 < limit % 64 := by
        rw [wordsEnd] at hlt
        split_ifs at hlt <;> omega
      rw [countCells, if_pos hword.2, trailingZeroes_of_set hq hword.1 hclear hset]
  | succ n ih =>
      rw [countCells]
      by_cases hword : q < 64 * cell + 64
      · rw [trailingZeroes_of_set hq hword hclear hset]
      · have hnone : bitmap.trailingZeroes cell shift = none :=
          trailingZeroes_of_clear fun i hi hi' => hclear i hi (by omega)
        have hrest := ih (cell + 1) 0 (length + (64 - shift)) (by omega) (by omega) (by omega)
          fun i hi hi' => hclear i (by omega) hi'
        rw [hnone]
        simp only
        rw [hrest]
        omega

theorem countCells_of_clear {limit : ℕ} (n cell shift length : ℕ) (hcell : cell + n = limit / 64)
    (hshift : shift ≤ 64) (hclear : bitmap.Clear (64 * cell + shift) (wordsEnd limit)) :
    bitmap.countCells limit n cell shift length =
      length + (64 * (limit / 64) - (64 * cell + shift)) + limit % 64 := by
  induction n generalizing cell shift length with
  | zero =>
      rw [countCells]
      split_ifs with hsuffix
      · have hend : wordsEnd limit = 64 * cell + 64 := by
          rw [wordsEnd, if_neg (by omega)]
          omega
        rw [trailingZeroes_of_clear (hend ▸ hclear)]
        simp only
        omega
      · omega
  | succ n ih =>
      have hend : 64 * cell + 64 ≤ wordsEnd limit := by
        rw [wordsEnd]
        split_ifs <;> omega
      rw [countCells, trailingZeroes_of_clear fun i hi hlt => hclear i hi (by omega)]
      simp only
      rw [ih (cell + 1) 0 _ (by omega) (by omega) fun i hi hlt => hclear i (by omega) hlt]
      omega

section Limit

variable {pos limit : ℕ}

theorem countTrailingZeroes_of_set (hle : pos ≤ limit) {q : ℕ} (hq : pos ≤ q)
    (hlt : q < wordsEnd limit) (hclear : bitmap.Clear pos q) (hset : bitmap q = true) :
    bitmap.countTrailingZeroes pos limit = q - pos := by
  have hpos : 64 * (pos / 64) + pos % 64 = pos := Nat.div_add_mod pos 64
  have hcells : bitmap.countTrailingZeroes pos limit = 0 + (q - (64 * (pos / 64) + pos % 64)) :=
    countCells_of_set _ _ _ _ (by omega) (by omega) (by omega) hlt (hpos.symm ▸ hclear) hset
  omega

theorem countTrailingZeroes_of_clear (hle : pos ≤ limit)
    (hclear : bitmap.Clear pos (wordsEnd limit)) :
    bitmap.countTrailingZeroes pos limit = 64 * (limit / 64) - pos + limit % 64 := by
  have hpos : 64 * (pos / 64) + pos % 64 = pos := Nat.div_add_mod pos 64
  have hcells : bitmap.countTrailingZeroes pos limit =
      0 + (64 * (limit / 64) - (64 * (pos / 64) + pos % 64)) + limit % 64 :=
    countCells_of_clear _ _ _ _ (by omega) (by omega) (hpos.symm ▸ hclear)
  rw [hcells, hpos, Nat.zero_add]

theorem le_wordsEnd (limit : ℕ) : limit ≤ wordsEnd limit := by
  rw [wordsEnd]
  split_ifs <;> omega

/-- A set bit before the limit is found. -/
theorem countTrailingZeroes_eq_scan (hle : pos ≤ limit) (hnot : ¬ bitmap.Clear pos limit) :
    bitmap.countTrailingZeroes pos limit = bitmap.scanCount pos limit ∧
      bitmap.scanCount pos limit < limit - pos := by
  obtain hclear | ⟨q, hq, hlt, hclear, hset⟩ := clear_or_first_set bitmap pos limit
  · exact absurd hclear hnot
  · have hend := le_wordsEnd limit
    rw [countTrailingZeroes_of_set hle hq (by omega) hclear hset,
      scanCount_of_set hq hlt hclear hset]
    omega

/-- Where no bit is set before the limit, the count reaches the limit, and it is right exactly if
the limit is the end of a word, or the bit at it is set, or the count comes from the words before
and finds no set bit behind the limit. -/
theorem countTrailingZeroes_clear_iff (hle : pos ≤ limit) (hclear : bitmap.Clear pos limit) :
    limit - pos ≤ bitmap.countTrailingZeroes pos limit ∧
      (bitmap.countTrailingZeroes pos limit = limit - pos ↔
        limit % 64 = 0 ∨ bitmap limit = true ∨ (pos ≤ 64 * (limit / 64) ∧
          ∀ i, limit ≤ i → i < 64 * (limit / 64) + 64 → bitmap i = false)) := by
  obtain hwords | ⟨q, hq, hlt, hbefore, hset⟩ := clear_or_first_set bitmap pos (wordsEnd limit)
  · rw [countTrailingZeroes_of_clear hle hwords]
    refine ⟨by omega, ?_⟩
    by_cases hzero : limit % 64 = 0
    · simp only [hzero, true_or, iff_true]
      omega
    · have hend : wordsEnd limit = 64 * (limit / 64) + 64 := if_neg hzero
      have hlimit : bitmap limit = false := hwords limit hle (by omega)
      rw [hlimit]
      simp only [hzero, Bool.false_eq_true, false_or]
      constructor
      · intro hcount
        exact ⟨by omega, fun i hi hi' => hwords i (by omega) (by omega)⟩
      · rintro ⟨hpos, -⟩
        omega
  · have hbehind : limit ≤ q := by
      by_contra hfirst
      rw [hclear q hq (by omega)] at hset
      cases hset
    rw [countTrailingZeroes_of_set hle hq hlt hbefore hset]
    refine ⟨by omega, ?_⟩
    have hzero : limit % 64 ≠ 0 := by
      intro hzero
      rw [wordsEnd, if_pos hzero] at hlt
      omega
    have hend : wordsEnd limit = 64 * (limit / 64) + 64 := if_neg hzero
    constructor
    · intro hcount
      have heq : q = limit := by omega
      exact Or.inr (Or.inl (heq ▸ hset))
    · rintro (hnot | hat | ⟨-, hbits⟩)
      · exact absurd hnot hzero
      · by_contra hcount
        rw [hbefore limit hle (by omega)] at hat
        cases hat
      · rw [hbits q hbehind (by omega)] at hset
        cases hset

end Limit

end Bitmap

namespace PkdAllocationMap

open Bitmap

variable {map : PkdAllocationMap} {level : ℕ}

theorem indexLevelSize_pos_iff {bitmap_size : ℕ} :
    0 < indexLevelSize bitmap_size ↔ ValuesPerBranch < bitmap_size := by
  rw [indexLevelSize]
  split_ifs with h
  · have hpos : 0 < divUp bitmap_size ValuesPerBranch := by
      by_contra hzero
      have hle := (divUp_le_iff (d := ValuesPerBranch) (by decide)).mp (Nat.le_of_not_lt hzero)
      have hval : ValuesPerBranch = 512 := rfl
      omega
    exact iff_of_true hpos h
  · exact iff_of_false (Nat.lt_irrefl 0) h

/-- A block of an indexed level that starts before the end of the level has an entry. -/
theorem lt_indexLevelSize_iff {bitmap_size b : ℕ} (h : ValuesPerBranch < bitmap_size) :
    b < indexLevelSize bitmap_size ↔ b * ValuesPerBranch < bitmap_size := by
  rw [indexLevelSize, if_pos h, ← Nat.not_le, divUp_le_iff (by decide), Nat.not_le, Nat.mul_comm]

def CountedBelow (map : PkdAllocationMap) (level b : ℕ) : Prop :=
  ∀ c < b, map.index level c = (map.symbols level).zeroes (c * ValuesPerBranch)
    (min ((c + 1) * ValuesPerBranch) (map.levelSize level))

theorem indexedAt_iff :
    map.IndexedAt level ↔ map.CountedBelow level (indexLevelSize (map.levelSize level)) := by
  refine forall₂_congr fun b _ => ?_
  rw [zeroes_eq_countP]
  have hlen : min ((b + 1) * ValuesPerBranch) (map.levelSize level) - b * ValuesPerBranch =
      min ValuesPerBranch (map.levelSize level - b * ValuesPerBranch) := by
    rw [Nat.succ_mul]
    omega
  rw [hlen]

theorem sum_index_of_counted {b : ℕ} (h : map.CountedBelow level b) :
    ((List.range b).map (map.index level)).sum =
      (map.symbols level).zeroes 0 (min (b * ValuesPerBranch) (map.levelSize level)) := by
  induction b with
  | zero => simp
  | succ b ih =>
      rw [List.range_succ, List.map_append, List.sum_append, ih fun c hc => h c (by omega)]
      simp only [List.map_cons, List.map_nil, List.sum_cons, List.sum_nil, Nat.add_zero]
      rw [h b (Nat.lt_succ_self b)]
      have hsucc : (b + 1) * ValuesPerBranch = b * ValuesPerBranch + ValuesPerBranch :=
        Nat.succ_mul b ValuesPerBranch
      by_cases hle : b * ValuesPerBranch ≤ map.levelSize level
      · rw [Nat.min_eq_left hle, ← zeroes_add (Nat.zero_le _) (by omega)]
      · have hend : min (b * ValuesPerBranch) (map.levelSize level) = map.levelSize level := by omega
        have hend' : min ((b + 1) * ValuesPerBranch) (map.levelSize level) = map.levelSize level := by
          omega
        have hnone : (map.symbols level).zeroes (b * ValuesPerBranch) (map.levelSize level) = 0 :=
          zeroes_of_le (by omega)
        rw [hend, hend', hnone, Nat.add_zero]

/-- Right sums of the first entries are made of right entries. -/
theorem counted_of_sums {b : ℕ}
    (hle : ∀ c < b, c * ValuesPerBranch ≤ map.levelSize level)
    (h : ∀ c ≤ b, ((List.range c).map (map.index level)).sum =
      (map.symbols level).zeroes 0 (min (c * ValuesPerBranch) (map.levelSize level))) :
    map.CountedBelow level b := by
  intro c hc
  have hnext := h (c + 1) hc
  rw [List.range_succ, List.map_append, List.sum_append, h c (by omega)] at hnext
  simp only [List.map_cons, List.map_nil, List.sum_cons, List.sum_nil, Nat.add_zero] at hnext
  have hsucc : (c + 1) * ValuesPerBranch = c * ValuesPerBranch + ValuesPerBranch :=
    Nat.succ_mul c ValuesPerBranch
  have hstart := hle c hc
  have hsplit : (map.symbols level).zeroes 0 (min ((c + 1) * ValuesPerBranch) (map.levelSize level)) =
      (map.symbols level).zeroes 0 (c * ValuesPerBranch) + (map.symbols level).zeroes
        (c * ValuesPerBranch) (min ((c + 1) * ValuesPerBranch) (map.levelSize level)) :=
    zeroes_add (Nat.zero_le _) (by omega)
  rw [Nat.min_eq_left hstart, hsplit] at hnext
  exact Nat.add_left_cancel hnext

theorem indexLevelSize_mul (h : ValuesPerBranch < map.levelSize level) :
    map.levelSize level ≤ indexLevelSize (map.levelSize level) * ValuesPerBranch := by
  by_contra hlt
  have hself := (lt_indexLevelSize_iff h).mpr (Nat.lt_of_not_le hlt)
  exact Nat.lt_irrefl _ hself

theorem sum_eq (hindex : map.IndexedAt level) :
    map.sum level = (map.symbols level).zeroes 0 (map.levelSize level) := by
  rw [sum]
  split_ifs with hpos
  · have hlevel := indexLevelSize_mul (indexLevelSize_pos_iff.mp hpos)
    rw [sum_index_of_counted (indexedAt_iff.mp hindex), Nat.min_eq_right hlevel]
  · have hzeroes := zeroes_eq_sub_popCount (map.symbols level) 0 (map.levelSize level)
    rwa [Nat.sub_zero] at hzeroes

theorem rank_eq (map : PkdAllocationMap) (pos level : ℕ) :
    map.rank pos level =
      (map.symbols level).zeroes (pos / ValuesPerBranch * ValuesPerBranch) pos +
        ((List.range (pos / ValuesPerBranch)).map (map.index level)).sum := by
  rw [rank]
  simp only [zeroes_eq_sub_popCount]
  split_ifs with hpos
  · rfl
  · have hzero : pos / ValuesPerBranch = 0 := by
      by_contra hne
      exact hpos (Nat.mul_pos (Nat.pos_of_ne_zero hne) (by decide))
    rw [hzero]
    simp

theorem rank_iff {pos : ℕ} (hindex : map.IndexedAt level) (hpos : pos ≤ map.levelSize level) :
    map.rank pos level = (map.symbols level).zeroes 0 pos ↔ map.RankOk level pos := by
  have hval : ValuesPerBranch = 512 := rfl
  have hle : pos / ValuesPerBranch * ValuesPerBranch ≤ pos := Nat.div_mul_le_self _ _
  rw [rank_eq, RankOk]
  by_cases hfirst : pos < ValuesPerBranch
  · simp [hfirst, Nat.div_eq_of_lt hfirst]
  · by_cases hlarge : ValuesPerBranch < map.levelSize level
    · have hcounted : map.CountedBelow level (pos / ValuesPerBranch) := by
        intro c hc
        apply indexedAt_iff.mp hindex
        rw [lt_indexLevelSize_iff hlarge]
        have := Nat.mul_le_mul_right ValuesPerBranch (Nat.succ_le_of_lt hc)
        rw [Nat.succ_mul] at this
        omega
      rw [sum_index_of_counted hcounted, Nat.min_eq_left (by omega), Nat.add_comm,
        ← zeroes_add (Nat.zero_le _) hle]
      simp [hlarge]
    · have heq : pos = ValuesPerBranch := by omega
      have hlevel : map.levelSize level = ValuesPerBranch := by omega
      have hone : ValuesPerBranch / ValuesPerBranch = 1 := rfl
      rw [heq, hone, Nat.one_mul, zeroes_self, Nat.zero_add]
      simp [hlevel]

/-- Below the rank the loop runs to its end; otherwise it has the entry of the block it stops at in
its sum already. -/
theorem selectLoop_spec (idxs : ℕ → ℕ) {rank : ℕ} (n c : ℕ) {sum : ℕ} (hs : sum < rank) :
    if sum + ((List.range' c n).map idxs).sum < rank then
      selectLoop idxs rank n c sum = (c + n, sum + ((List.range' c n).map idxs).sum)
    else rank ≤ (selectLoop idxs rank n c sum).2 := by
  induction n generalizing c sum with
  | zero => simp [selectLoop, hs]
  | succ n ih =>
      rw [List.range'_succ, List.map_cons, List.sum_cons, selectLoop, ← Nat.add_assoc]
      by_cases hstop : rank ≤ sum + idxs c
      · rw [if_pos hstop, if_neg (by omega)]
        exact hstop
      · rw [if_neg hstop, show c + (n + 1) = c + 1 + n by omega]
        exact ih (c + 1) (by omega)

theorem select0_iff {r : ℕ} (hindex : map.IndexedAt level) (hr : 1 ≤ r) :
    Query.Agrees map level (.select0 r) ↔ Query.Ok map level (.select0 r) := by
  simp only [Query.Agrees, Query.Ok, select0]
  by_cases hlarge : ValuesPerBranch < map.levelSize level
  · have hsum : ((List.range' 0 (indexLevelSize (map.levelSize level))).map
        (map.index level)).sum = (map.symbols level).zeroes 0 (map.levelSize level) := by
      rw [← List.range_eq_range', sum_index_of_counted (indexedAt_iff.mp hindex),
        Nat.min_eq_right (indexLevelSize_mul hlarge)]
    have hspec := selectLoop_spec (map.index level) (indexLevelSize (map.levelSize level)) 0 hr
    rw [Nat.zero_add, hsum] at hspec
    change (if _ then map.selectStart r level = _ else r ≤ (map.selectStart r level).2) at hspec
    have hsmall : ¬ map.levelSize level ≤ ValuesPerBranch := by omega
    simp only [hsmall, false_or]
    by_cases hmore : (map.symbols level).zeroes 0 (map.levelSize level) < r
    · rw [if_pos hmore] at hspec
      rw [hspec, select0FW_of_le (by simpa using indexLevelSize_mul hlarge),
        scanSelect_none hr hmore]
      simp [hmore]
    · rw [if_neg hmore] at hspec
      refine iff_of_false ?_ hmore
      obtain ⟨d, hd, hscan⟩ := scanSelect_some hr (Nat.le_of_not_lt hmore)
      rw [hscan]
      intro heq
      injection heq with hpos _ hrank
      simp only at hpos hrank
      obtain hfound | hend := select0FW_cases (map.symbols level)
        ((map.selectStart r level).1 * ValuesPerBranch) (map.levelSize level) hr
      · rw [hfound] at hrank
        omega
      · omega
  · have hsize : indexLevelSize (map.levelSize level) = 0 :=
      Nat.eq_zero_of_not_pos (mt indexLevelSize_pos_iff.mp hlarge)
    have hstart : map.selectStart r level = (0, 0) := by
      rw [selectStart, hsize]
      rfl
    rw [hstart, Nat.zero_mul, select0FW_eq (Nat.zero_le _) hr]
    simp [Nat.le_of_not_lt hlarge]

/-- The search from `start` on is the search for the rank behind it, if the rank of `start` is
right. -/
theorem selectFW_agrees_iff {start r : ℕ} (hstart : start ≤ map.levelSize level) (hr : 1 ≤ r)
    (hrank : map.rank start level = (map.symbols level).zeroes 0 start) :
    Query.Agrees map level (.selectFW start r) ↔
      Query.Agrees map level (.select0 ((map.symbols level).zeroes 0 start + r)) := by
  have hfound : ((map.symbols level).scanSelect start (map.levelSize level) r).found = _ :=
    scanSelect_found hr
  simp only [Query.Agrees, selectFWFrom, selectFW, hrank, scanSelect_shift hr hstart]
  generalize (map.symbols level).scanSelect start (map.levelSize level) r = scanned at hfound ⊢
  have hsize : (map.select0 ((map.symbols level).zeroes 0 start + r) level).bm_size =
      map.levelSize level := rfl
  generalize map.select0 ((map.symbols level).zeroes 0 start + r) level = res at hsize ⊢
  obtain ⟨pos, bm_size, rank⟩ := res
  obtain ⟨pos', rank', found⟩ := scanned
  simp only at hsize hfound
  subst hsize
  simp only [hfound, SelectResult.mk.injEq, LevelResult.mk.injEq, true_and, Nat.shiftLeft_eq]
  constructor
  · rintro ⟨hpos, hrank', -⟩
    exact ⟨Nat.eq_of_mul_eq_mul_right (Nat.two_pow_pos level) hpos, by omega⟩
  · rintro ⟨rfl, rfl⟩
    exact ⟨rfl, by omega, rfl⟩

theorem selectFW_iff {start r : ℕ} (hindex : map.IndexedAt level)
    (hstart : start ≤ map.levelSize level) (hr : 1 ≤ r) :
    Query.Agrees map level (.selectFW start r) ↔ Query.Ok map level (.selectFW start r) := by
  by_cases hrank : map.RankOk level start
  · have htotal : (map.symbols level).zeroes 0 (map.levelSize level) =
        (map.symbols level).zeroes 0 start +
          (map.symbols level).zeroes start (map.levelSize level) := zeroes_add (Nat.zero_le _) hstart
    rw [selectFW_agrees_iff hstart hr ((rank_iff hindex hstart).mpr hrank),
      select0_iff hindex (by omega)]
    simp only [Query.Ok, hrank, true_and, htotal, Nat.add_lt_add_iff_left]
  · refine iff_of_false ?_ fun hok => hrank hok.1
    -- the rank of `start` is the entry of an index that the level does not have
    have hval : ValuesPerBranch = 512 := rfl
    simp only [RankOk, not_or] at hrank
    obtain ⟨hpos, hlevel, hentry⟩ := hrank
    have heq : start = ValuesPerBranch := by omega
    have hsize : map.levelSize level = ValuesPerBranch := by omega
    have hread : map.rank start level = map.index level 0 := by
      rw [rank_eq, heq, show ValuesPerBranch / ValuesPerBranch = 1 from rfl, Nat.one_mul, zeroes_self]
      simp
    have hselect := (select0_iff hindex (r := map.index level 0 + r) (by omega)).mpr
      (Or.inl (Nat.le_of_eq hsize))
    simp only [Query.Agrees] at hselect
    simp only [Query.Agrees, selectFWFrom, selectFW, hread, hselect]
    have hend : (map.symbols level).scanSelect ValuesPerBranch ValuesPerBranch r =
        ⟨ValuesPerBranch, 0, false⟩ := by
      rw [scanSelect_none hr, zeroes_self]
      · rfl
      · rwa [zeroes_self]
    rw [hsize, heq, hend]
    intro hagree
    injection hagree with hpos' hrank' _
    by_cases hmore : (map.symbols level).zeroes 0 ValuesPerBranch < map.index level 0 + r
    · rw [scanSelect_none (by omega) hmore] at hrank'
      simp only at hrank'
      omega
    · obtain ⟨d, hd, hscan⟩ := scanSelect_some (by omega) (Nat.le_of_not_lt hmore)
      rw [hscan] at hpos'
      simp only [Nat.shiftLeft_eq] at hpos'
      have := Nat.eq_of_mul_eq_mul_right (Nat.two_pow_pos level) hpos'
      omega

theorem blockLimit_le (map : PkdAllocationMap) (start level : ℕ) :
    map.blockLimit start level ≤ map.levelSize level :=
  Nat.min_le_right _ _

theorem le_blockLimit {start : ℕ} (h : start ≤ map.levelSize level) :
    start ≤ map.blockLimit start level := by
  have hval : ValuesPerBranch = 512 := rfl
  rw [blockLimit, hval]
  omega

/-- The blocks behind the first one are counted right: a block of clear bits by its entry, and the
first other one has a set bit to stop at. -/
theorem countLoop_eq (hcounted : map.CountedBelow level (indexLevelSize (map.levelSize level)))
    (hlarge : ValuesPerBranch < map.levelSize level) (n ii sum : ℕ)
    (hii : ii + n = indexLevelSize (map.levelSize level)) :
    countLoop (map.symbols level) (map.index level) (map.levelSize level) n ii sum =
      sum + (map.symbols level).scanCount (min (ii * ValuesPerBranch) (map.levelSize level))
        (map.levelSize level) := by
  induction n generalizing ii sum with
  | zero =>
      have hend := indexLevelSize_mul hlarge
      rw [countLoop, ← hii, Nat.add_zero] at *
      rw [Nat.min_eq_right hend, scanCount_self, Nat.add_zero]
  | succ n ih =>
      have hstart := (lt_indexLevelSize_iff (b := ii) hlarge).mp (by omega)
      have hsucc : (ii + 1) * ValuesPerBranch = ii * ValuesPerBranch + ValuesPerBranch :=
        Nat.succ_mul ii ValuesPerBranch
      rw [countLoop, Nat.min_eq_left (Nat.le_of_lt hstart), hcounted ii (by omega)]
      split_ifs with hfull
      · have hclear := zeroes_eq_iff_clear.mp hfull
        have hscan := scanCount_of_clear (by omega) (Nat.min_le_right _ _) hclear
        rw [hfull, ih (ii + 1) _ (by omega), hscan, Nat.add_assoc]
      · have hnot := mt zeroes_eq_iff_clear.mpr hfull
        obtain hclear | ⟨q, hq, hlt, hbefore, hset⟩ := clear_or_first_set (map.symbols level)
          (ii * ValuesPerBranch) (min ((ii + 1) * ValuesPerBranch) (map.levelSize level))
        · exact absurd hclear hnot
        · have hend := le_wordsEnd (min ((ii + 1) * ValuesPerBranch) (map.levelSize level))
          rw [countTrailingZeroes_of_set (by omega) hq (by omega) hbefore hset,
            scanCount_of_set hq (by omega) hbefore hset]

theorem countLoop_behind (hindex : map.IndexedAt level) (start : ℕ) :
    countLoop (map.symbols level) (map.index level) (map.levelSize level)
        (indexLevelSize (map.levelSize level) - (start / ValuesPerBranch + 1))
        (start / ValuesPerBranch + 1) 0 =
      (map.symbols level).scanCount (map.blockLimit start level) (map.levelSize level) := by
  by_cases hnext : (start / ValuesPerBranch + 1) * ValuesPerBranch < map.levelSize level
  · have hval : ValuesPerBranch = 512 := rfl
    have hlarge : ValuesPerBranch < map.levelSize level := by
      rw [Nat.succ_mul] at hnext
      omega
    have hentry := (lt_indexLevelSize_iff hlarge).mpr hnext
    rw [countLoop_eq (indexedAt_iff.mp hindex) hlarge _ _ _ (by omega), Nat.zero_add]
    rfl
  · have hnone : indexLevelSize (map.levelSize level) - (start / ValuesPerBranch + 1) = 0 := by
      apply Nat.sub_eq_zero_of_le
      by_cases hlarge : ValuesPerBranch < map.levelSize level
      · exact Nat.le_of_not_lt (mt (lt_indexLevelSize_iff hlarge).mp hnext)
      · have hzero := Nat.eq_zero_of_not_pos (mt indexLevelSize_pos_iff.mp hlarge)
        rw [hzero]
        exact Nat.zero_le _
    have hlimit : map.blockLimit start level = map.levelSize level :=
      Nat.min_eq_right (Nat.le_of_not_lt hnext)
    rw [hnone, hlimit, scanCount_self]
    rfl

theorem countFW_iff {start : ℕ} (hindex : map.IndexedAt level)
    (hstart : start ≤ map.levelSize level) :
    Query.Agrees map level (.countFW start) ↔ Query.Ok map level (.countFW start) := by
  have hle := le_blockLimit hstart
  have hlevel := map.blockLimit_le start level
  simp only [Query.Agrees, Query.Ok, countFW, countLoop_behind hindex]
  generalize map.blockLimit start level = limit at hle hlevel ⊢
  by_cases hclear : (map.symbols level).Clear start limit
  · obtain ⟨hge, hiff⟩ := countTrailingZeroes_clear_iff hle hclear
    have hset : (∃ i, start ≤ i ∧ i ≤ limit ∧ map.symbols level i = true) ↔
        map.symbols level limit = true := by
      constructor
      · rintro ⟨i, hi, hi', hbit⟩
        obtain hlt | rfl := Nat.lt_or_eq_of_le hi'
        · rw [hclear i hi hlt] at hbit
          cases hbit
        · exact hbit
      · intro hbit
        exact ⟨limit, hle, Nat.le_refl _, hbit⟩
    rw [if_neg (by omega), scanCount_of_clear hle hlevel hclear, Nat.add_right_cancel_iff, hiff, hset]
  · obtain ⟨hcount, hlt⟩ := countTrailingZeroes_eq_scan hle hclear
    obtain hall | ⟨q, hq, hqlt, hbefore, hset⟩ := clear_or_first_set (map.symbols level) start limit
    · exact absurd hall hclear
    · rw [hcount, if_pos hlt, scanCount_of_set hq hqlt hbefore hset,
        scanCount_of_set hq (by omega) hbefore hset]
      exact iff_of_true rfl (Or.inr (Or.inl ⟨q, hq, Nat.le_of_lt hqlt, hset⟩))

/-- With right index entries a query is right exactly if its condition holds. -/
theorem agrees_iff_ok (hindex : map.IndexedAt level) {query : Query}
    (hquery : query.InRange map level) : query.Agrees map level ↔ query.Ok map level := by
  cases query with
  | sum => exact iff_of_true (sum_eq hindex) trivial
  | rank pos => exact rank_iff hindex hquery
  | select0 r => exact select0_iff hindex hquery
  | selectFW start r => exact selectFW_iff hindex hquery.1 hquery.2
  | countFW start => exact countFW_iff hindex hquery

/-- The ranks of the starts of the blocks and the sum of a level show its entries. -/
theorem indexedAt_of_agrees
    (h : ∀ query : Query, query.InRange map level → query.Agrees map level) :
    map.IndexedAt level := by
  rw [indexedAt_iff]
  by_cases hlarge : ValuesPerBranch < map.levelSize level
  · have hstarts : ∀ c < indexLevelSize (map.levelSize level),
        c * ValuesPerBranch ≤ map.levelSize level := fun c hc =>
      Nat.le_of_lt ((lt_indexLevelSize_iff hlarge).mp hc)
    apply counted_of_sums hstarts
    intro c hc
    by_cases hlast : c = indexLevelSize (map.levelSize level)
    · have hsum : map.sum level = _ := h .sum trivial
      rw [sum, if_pos (indexLevelSize_pos_iff.mpr hlarge)] at hsum
      rw [hlast, Nat.min_eq_right (indexLevelSize_mul hlarge)]
      exact hsum
    · have hle := hstarts c (by omega)
      have hrank : map.rank (c * ValuesPerBranch) level = _ := h (.rank (c * ValuesPerBranch)) hle
      rw [rank_eq, Nat.mul_div_cancel _ (by decide), zeroes_self, Nat.zero_add] at hrank
      rw [hrank, Nat.min_eq_left hle]
  · intro c hc
    have := mt indexLevelSize_pos_iff.mp hlarge
    omega

/-- The queries of a level are all right exactly if its index is right and the condition of each of
them holds; and where the index is right, this is so for each query on its own. -/
theorem queries_agree_iff (map : PkdAllocationMap) (level : ℕ) :
    ((∀ query : Query, query.InRange map level → query.Agrees map level) ↔
      map.IndexedAt level ∧ ∀ query : Query, query.InRange map level → query.Ok map level) ∧
    (map.IndexedAt level → ∀ query : Query, query.InRange map level →
      (query.Agrees map level ↔ query.Ok map level)) := by
  refine ⟨?_, fun hindex query hquery => agrees_iff_ok hindex hquery⟩
  constructor
  · intro h
    have hindex := indexedAt_of_agrees h
    exact ⟨hindex, fun query hquery => (agrees_iff_ok hindex hquery).mp (h query hquery)⟩
  · rintro ⟨hindex, hok⟩ query hquery
    exact (agrees_iff_ok hindex hquery).mpr (hok query hquery)

def twoBlocks : PkdAllocationMap :=
  ((initBySize 1024).enlarge 1024).getD (initBySize 1024)

theorem twoBlocks_eq : (initBySize 1024).enlarge 1024 = some twoBlocks := by
  rw [twoBlocks, enlarge_eq_some (by decide) (by decide)]
  rfl

theorem twoBlocks_indexed : twoBlocks.Indexed := by
  rw [twoBlocks, enlarge_eq_some (by decide) (by decide)]
  exact reindex_indexed true

theorem queries_agree_twoBlocks : twoBlocks.IndexedAt 0 ∧
    Query.Agrees twoBlocks 0 (.rank 700) ∧ Query.Agrees twoBlocks 0 (.countFW 700) := by
  have hindex : twoBlocks.IndexedAt 0 := twoBlocks_indexed 0 (by decide)
  have hpos : 700 ≤ twoBlocks.levelSize 0 := by decide
  refine ⟨hindex, ?_, ?_⟩
  · exact ((queries_agree_iff twoBlocks 0).2 hindex (.rank 700) hpos).mpr
      (Or.inr (Or.inl (by decide)))
  · exact ((queries_agree_iff twoBlocks 0).2 hindex (.countFW 700) hpos).mpr
      (Or.inl (by decide))

/-- In a fresh map of two blocks the first clear unit is found with the rank 513. -/
theorem select0_first_fails : (initBySize 1024).enlarge 1024 = some twoBlocks ∧
    twoBlocks.Indexed ∧ Query.InRange twoBlocks 0 (.select0 1) ∧
      ¬ Query.Agrees twoBlocks 0 (.select0 1) := by
  refine ⟨twoBlocks_eq, twoBlocks_indexed, Nat.le_refl 1, ?_⟩
  rw [select0_iff (twoBlocks_indexed 0 (by decide)) (Nat.le_refl 1)]
  have hsize : twoBlocks.levelSize 0 = 1024 := rfl
  have hclear : (twoBlocks.symbols 0).Clear 0 1024 := by
    intro i _ hi
    rw [twoBlocks, enlarge_eq_some (by decide) (by decide), Option.getD_some, reindex, if_pos rfl,
      reindexLevels_symbols, rebuildBitmaps_below (Nat.le_refl 0)]
    simp [fillZero, initBySize]
  have hzeroes := zeroes_eq_iff_clear.mpr hclear
  rintro (hsmall | hmore)
  · exact absurd hsmall (by decide)
  · rw [hsize, hzeroes] at hmore
    omega

end PkdAllocationMap

end Memoria

import Mathlib.Algebra.BigOperators.Group.List.Basic
import Memoria.Lib.RankSelect

/-!
# Run lengths

A list of runs stands for the list with every symbol as often as its run is long. A position in the
list lies in one of the runs, or behind all of them.
-/

namespace Memoria.Lib

variable {α : Type}

structure Run (α : Type) where
  symbol : α
  length : ℕ
deriving DecidableEq

namespace Run

def expand (runs : List (Run α)) : List α :=
  runs.flatMap fun run => List.replicate run.length run.symbol

@[simp]
theorem expand_nil : expand ([] : List (Run α)) = [] := rfl

theorem expand_cons (run : Run α) (runs : List (Run α)) :
    expand (run :: runs) = List.replicate run.length run.symbol ++ expand runs := rfl

theorem expand_append (runs runs' : List (Run α)) :
    expand (runs ++ runs') = expand runs ++ expand runs' :=
  List.flatMap_append

theorem length_expand (runs : List (Run α)) :
    (expand runs).length = (runs.map fun run => run.length).sum := by
  induction runs with
  | nil => rfl
  | cons run runs ih =>
      rw [expand_cons, List.length_append, List.length_replicate, ih, List.map_cons, List.sum_cons]

theorem length_expand_cons (run : Run α) (runs : List (Run α)) :
    (expand (run :: runs)).length = run.length + (expand runs).length := by
  rw [expand_cons, List.length_append, List.length_replicate]

theorem drop_expand_of_lt {run : Run α} {runs : List (Run α)} {i : ℕ} (h : i < run.length) :
    (expand (run :: runs)).drop i = expand (⟨run.symbol, run.length - i⟩ :: runs) := by
  rw [expand_cons, List.drop_append, List.length_replicate, List.drop_replicate,
    Nat.sub_eq_zero_of_le (Nat.le_of_lt h), List.drop_zero, expand_cons]

theorem getElem?_expand_of_lt {run : Run α} {runs : List (Run α)} {i : ℕ} (h : i < run.length) :
    (expand (run :: runs))[i]? = some run.symbol := by
  rw [expand_cons, List.getElem?_append_left (by rwa [List.length_replicate]),
    List.getElem?_replicate_of_lt h]

theorem getElem?_expand_of_le {run : Run α} {runs : List (Run α)} {i : ℕ} (h : run.length ≤ i) :
    (expand (run :: runs))[i]? = (expand runs)[i - run.length]? := by
  rw [expand_cons, List.getElem?_append_right (by rwa [List.length_replicate]),
    List.length_replicate]

theorem count_expand_cons [DecidableEq α] (run : Run α) (runs : List (Run α)) (symbol : α) :
    (expand (run :: runs)).count symbol =
      (if run.symbol = symbol then run.length else 0) + (expand runs).count symbol := by
  rw [expand_cons, List.count_append, List.count_replicate]
  simp only [beq_iff_eq]

/-- The occurrences of a symbol, run by run. -/
theorem count_expand [DecidableEq α] (runs : List (Run α)) (symbol : α) :
    (expand runs).count symbol =
      (runs.map fun run => if run.symbol = symbol then run.length else 0).sum := by
  induction runs with
  | nil => rfl
  | cons run runs ih => rw [count_expand_cons, ih, List.map_cons, List.sum_cons]

theorem take_expand_of_le {run : Run α} {runs : List (Run α)} {i : ℕ} (h : run.length ≤ i) :
    (expand (run :: runs)).take i =
      List.replicate run.length run.symbol ++ (expand runs).take (i - run.length) := by
  rw [expand_cons, List.take_append, List.length_replicate, List.take_replicate, Nat.min_eq_right h]

theorem take_expand_of_lt {run : Run α} {runs : List (Run α)} {i : ℕ} (h : i < run.length) :
    (expand (run :: runs)).take i = List.replicate i run.symbol := by
  rw [expand_cons, List.take_append, List.length_replicate, List.take_replicate,
    Nat.sub_eq_zero_of_le (Nat.le_of_lt h), List.take_zero, List.append_nil,
    Nat.min_eq_left (Nat.le_of_lt h)]

section Searches

variable [DecidableEq α]

theorem select_replicate_of_lt {symbol : α} {n k : ℕ} (h : k < n) :
    select symbol (List.replicate n symbol) k = some k := by
  rw [select_eq_some_iff, List.getElem?_replicate_of_lt h, List.take_replicate,
    List.count_replicate_self, Nat.min_eq_left (Nat.le_of_lt h)]
  exact ⟨rfl, rfl⟩

theorem select_expand_cons (run : Run α) (runs : List (Run α)) (symbol : α) (k : ℕ) :
    select symbol (expand (run :: runs)) k =
      if run.symbol = symbol then
        if k < run.length then some k
        else (select symbol (expand runs) (k - run.length)).map (· + run.length)
      else (select symbol (expand runs) k).map (· + run.length) := by
  by_cases hsymbol : run.symbol = symbol
  · rw [if_pos hsymbol, expand_cons, select_append, hsymbol, List.count_replicate_self,
      List.length_replicate]
    split_ifs with hk
    · exact select_replicate_of_lt hk
    · rfl
  · have hcount : (List.replicate run.length run.symbol).count symbol = 0 :=
      List.count_eq_zero_of_not_mem fun hmem => hsymbol (List.eq_of_mem_replicate hmem).symm
    rw [if_neg hsymbol, expand_cons, select_append, hcount, if_neg (Nat.not_lt_zero k), Nat.sub_zero,
      List.length_replicate]

variable [LinearOrder α]

theorem selectGe_replicate_self (symbol : α) (n : ℕ) (l : List α) (k : ℕ) :
    selectGe symbol (List.replicate n symbol ++ l) k =
      if k < n then some k else (selectGe symbol l (k - n)).map (· + n) := by
  induction n generalizing k with
  | zero =>
      rw [if_neg (Nat.not_lt_zero k), List.replicate_zero, List.nil_append, Nat.sub_zero]
      exact Option.map_id'.symm
  | succ n ih =>
      rw [List.replicate_succ, List.cons_append]
      simp only [selectGe, if_neg (lt_irrefl symbol), if_true]
      cases k with
      | zero => rw [if_pos (Nat.succ_pos n)]
      | succ k =>
          simp only [ih, Nat.add_lt_add_iff_right, Nat.add_sub_add_right]
          split_ifs
          · rfl
          · rw [Option.map_map]
            rfl

theorem selectGe_replicate_above {symbol other : α} (h : symbol < other) (n : ℕ) (l : List α) (k : ℕ) :
    selectGe symbol (List.replicate n other ++ l) k = (selectGe symbol l k).map (· + n) := by
  induction n with
  | zero => exact Option.map_id'.symm
  | succ n ih =>
      rw [List.replicate_succ, List.cons_append]
      simp only [selectGe, if_neg (lt_asymm h), if_neg (ne_of_gt h), ih, Option.map_map]
      rfl

theorem selectGe_expand_cons {run : Run α} (hpos : 0 < run.length) (runs : List (Run α)) (symbol : α)
    (k : ℕ) :
    selectGe symbol (expand (run :: runs)) k =
      if run.symbol = symbol then
        if k < run.length then some k
        else (selectGe symbol (expand runs) (k - run.length)).map (· + run.length)
      else if run.symbol < symbol then some 0
      else (selectGe symbol (expand runs) k).map (· + run.length) := by
  rw [expand_cons]
  split_ifs with hsymbol hk hbelow
  · rw [hsymbol, selectGe_replicate_self, if_pos hk]
  · rw [hsymbol, selectGe_replicate_self, if_neg hk]
  · obtain ⟨n, hn⟩ := Nat.exists_eq_succ_of_ne_zero (Nat.ne_of_gt hpos)
    rw [hn, List.replicate_succ, List.cons_append]
    simp only [selectGe, if_pos hbelow]
  · exact selectGe_replicate_above (lt_of_le_of_ne (le_of_not_gt hbelow) (Ne.symm hsymbol)) _ _ k

end Searches

end Run

end Memoria.Lib

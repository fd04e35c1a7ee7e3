import Mathlib.Data.List.Basic
import Mathlib.Data.Nat.Notation
import Mathlib.Logic.Function.Basic

/-!
# Slots of an allocation

What memory has from the start of an allocation on, how many slots the allocation has, and whether
a slot past them has been written. Loops that fill a range of slots or move one, and what they leave
in each slot.
-/

namespace Memoria.Lib

structure Slots (T : Type) where
  cells : ℕ → T
  allocated : ℕ
  overrun : Bool

namespace Slots

variable {T : Type}

def write (slots : Slots T) (idx : ℕ) (value : T) : Slots T :=
  { slots with
    cells := Function.update slots.cells idx value
    overrun := slots.overrun || decide (slots.allocated ≤ idx) }

@[simp]
theorem write_allocated (slots : Slots T) (idx : ℕ) (value : T) :
    (slots.write idx value).allocated = slots.allocated := rfl

theorem write_cells (slots : Slots T) (idx : ℕ) (value : T) (i : ℕ) :
    (slots.write idx value).cells i = if i = idx then value else slots.cells i := by
  simp only [write, Function.update_apply]

theorem write_overrun (slots : Slots T) (idx : ℕ) (value : T) :
    (slots.write idx value).overrun = (slots.overrun || decide (slots.allocated ≤ idx)) := rfl

def contents (slots : Slots T) (size : ℕ) : List T :=
  (List.range size).map slots.cells

@[simp]
theorem length_contents (slots : Slots T) (size : ℕ) : (slots.contents size).length = size := by
  simp [contents]

theorem getElem?_contents (slots : Slots T) {size i : ℕ} (hi : i < size) :
    (slots.contents size)[i]? = some (slots.cells i) := by
  simp [contents, hi]

theorem contents_eq_iff {slots : Slots T} {size : ℕ} {l : List T} :
    slots.contents size = l ↔
      l.length = size ∧ ∀ i, i < size → l[i]? = some (slots.cells i) := by
  constructor
  · rintro rfl
    exact ⟨length_contents slots size, fun i hi => getElem?_contents slots hi⟩
  · rintro ⟨hlength, hcells⟩
    apply List.ext_getElem?
    intro i
    by_cases hi : i < size
    · rw [getElem?_contents slots hi, hcells i hi]
    · rw [List.getElem?_eq_none (by simpa using hi), List.getElem?_eq_none (by omega)]

theorem contents_congr {slots slots' : Slots T} {size : ℕ}
    (h : ∀ i, i < size → slots'.cells i = slots.cells i) :
    slots'.contents size = slots.contents size := by
  apply List.map_congr_left
  intro i hi
  exact h i (List.mem_range.mp hi)

def fill (slots : Slots T) (f : ℕ → T) (start count : ℕ) : Slots T :=
  (List.range' start count).foldl (fun slots c => slots.write c (f c)) slots

variable (f : ℕ → T) (start : ℕ)

theorem fill_succ (count : ℕ) (slots : Slots T) :
    slots.fill f start (count + 1) =
      (slots.fill f start count).write (start + count) (f (start + count)) := by
  simp [fill, List.range'_1_concat]

@[simp]
theorem fill_allocated (count : ℕ) (slots : Slots T) :
    (slots.fill f start count).allocated = slots.allocated := by
  induction count with
  | zero => rfl
  | succ count ih => rw [fill_succ, write_allocated, ih]

theorem fill_cells (count : ℕ) (slots : Slots T) (i : ℕ) :
    (slots.fill f start count).cells i =
      if start ≤ i ∧ i < start + count then f i else slots.cells i := by
  induction count with
  | zero =>
      rw [if_neg (by omega)]
      rfl
  | succ count ih =>
      rw [fill_succ, write_cells, ih]
      by_cases hi : i = start + count
      · subst hi
        simp
      · rw [if_neg hi]
        apply if_congr _ rfl rfl
        omega

theorem fill_overrun (count : ℕ) (slots : Slots T) :
    (slots.fill f start count).overrun = true ↔
      slots.overrun = true ∨ (0 < count ∧ slots.allocated < start + count) := by
  induction count with
  | zero => simp [fill]
  | succ count ih =>
      rw [fill_succ, write_overrun, fill_allocated, Bool.or_eq_true, ih, decide_eq_true_eq, or_assoc]
      apply or_congr_right
      omega

def moveDown (slots : Slots T) (dist start count : ℕ) : Slots T :=
  (List.range' start count).foldl (fun slots c => slots.write (c - dist) (slots.cells c)) slots

theorem moveDown_succ (dist start count : ℕ) (slots : Slots T) :
    slots.moveDown dist start (count + 1) =
      (slots.moveDown dist start count).write (start + count - dist)
        ((slots.moveDown dist start count).cells (start + count)) := by
  simp [moveDown, List.range'_1_concat]

@[simp]
theorem moveDown_allocated (dist start count : ℕ) (slots : Slots T) :
    (slots.moveDown dist start count).allocated = slots.allocated := by
  induction count with
  | zero => rfl
  | succ count ih => rw [moveDown_succ, write_allocated, ih]

theorem moveDown_cells {dist start : ℕ} (hdist : dist ≤ start) (count : ℕ) (slots : Slots T)
    (i : ℕ) :
    (slots.moveDown dist start count).cells i =
      if start ≤ i + dist ∧ i + dist < start + count then slots.cells (i + dist)
      else slots.cells i := by
  induction count generalizing i with
  | zero =>
      rw [if_neg (by omega)]
      rfl
  | succ count ih =>
      rw [moveDown_succ, write_cells, ih, ih i]
      by_cases hi : i = start + count - dist
      · -- The slot read is the one `dist` above, or the same one, not written so far.
        rw [if_pos hi, if_neg (by omega), if_pos (by omega)]
        congr 1
        omega
      · rw [if_neg hi]
        apply if_congr _ rfl rfl
        omega

theorem moveDown_overrun {dist start : ℕ} (count : ℕ) (slots : Slots T)
    (h : start + count ≤ slots.allocated) :
    (slots.moveDown dist start count).overrun = slots.overrun := by
  induction count with
  | zero => rfl
  | succ count ih =>
      have hbelow : ¬ slots.allocated ≤ start + count - dist := by omega
      rw [moveDown_succ, write_overrun, moveDown_allocated, ih (by omega)]
      simp [hbelow]

end Slots

end Memoria.Lib

import Memoria.LinkedVector
import Memoria.Lib.Run
import Mathlib.Data.List.InsertIdx

/-!
# Linked vectors as lists

Each loop is described by what it leaves in each slot and by whether it writes past the allocation.
From that an operation on a vector with room for it is right exactly under the condition its `Sound`
names, and a run is right in every state exactly when each of its steps is sound.
-/

namespace Memoria

open Lib

namespace LinkedVector

variable {T : Type}

theorem shiftLoop_zero (size fuel c : ℕ) (data : Slots T) : shiftLoop 0 size fuel c data = none := by
  induction fuel generalizing c data with
  | zero => rfl
  | succ fuel ih =>
      rw [shiftLoop, if_pos (Nat.zero_le c)]
      exact ih _ _

/-- From `c` down to `idx` the elements move by `size`. The first one moved goes to `c + size`,
which may be past the block. -/
theorem shiftLoop_spec {idx : ℕ} (hidx : 0 < idx) (size : ℕ) {fuel c : ℕ} (hfuel : c < fuel)
    (data : Slots T) :
    ∃ shifted, shiftLoop idx size fuel c data = some shifted ∧
      shifted.allocated = data.allocated ∧
      (shifted.overrun = true ↔
        data.overrun = true ∨ idx ≤ c ∧ data.allocated ≤ c + size) ∧
      ∀ i, shifted.cells i =
        if idx + size ≤ i ∧ i ≤ c + size then data.cells (i - size) else data.cells i := by
  induction c generalizing fuel data with
  | zero =>
      obtain ⟨fuel, rfl⟩ : ∃ n, fuel = n + 1 := ⟨fuel - 1, by omega⟩
      refine ⟨data, by rw [shiftLoop, if_neg (by omega)], rfl, ?_, ?_⟩
      · constructor
        · exact Or.inl
        · rintro (h | h)
          · exact h
          · omega
      · intro i
        rw [if_neg (by omega)]
  | succ c ih =>
      obtain ⟨fuel, rfl⟩ : ∃ n, fuel = n + 1 := ⟨fuel - 1, by omega⟩
      by_cases hc : c + 1 ≥ idx
      · -- Slot `c + 1` moves first, so that the rest of the loop reads slots not yet written.
        obtain ⟨shifted, hloop, halloc, hover, hcells⟩ := ih (show c < fuel by omega)
          (data.write (c + 1 + size) (data.cells (c + 1)))
        refine ⟨shifted, ?_, halloc, ?_, ?_⟩
        · rw [shiftLoop, if_pos hc]
          exact hloop
        · rw [hover, Slots.write_overrun, Slots.write_allocated, Bool.or_eq_true,
            decide_eq_true_eq, or_assoc]
          apply or_congr_right
          omega
        · intro i
          rw [hcells, Slots.write_cells, Slots.write_cells]
          by_cases hi : i = c + 1 + size
          · subst hi
            rw [if_neg (by omega), if_pos rfl, if_pos (by omega), Nat.add_sub_cancel]
          · rw [if_neg hi]
            by_cases hin : idx + size ≤ i ∧ i ≤ c + size
            · rw [if_pos hin, if_neg (by omega), if_pos (by omega)]
            · rw [if_neg hin, if_neg (by omega)]
      · refine ⟨data, by rw [shiftLoop, if_neg hc], rfl, ?_, ?_⟩
        · constructor
          · exact Or.inl
          · rintro (h | h)
            · exact h
            · omega
        · intro i
          rw [if_neg (by omega)]

/-- The rounds `shift_right` is given are enough: where it is `none`, no number of them is. -/
theorem shiftRight_eq_none_iff (vector : LinkedVector T) (idx size : ℕ) :
    vector.shiftRight idx size = none ↔
      ∀ fuel, shiftLoop idx size fuel (vector.size - size) vector.data = none := by
  constructor
  · intro hnone fuel
    rcases Nat.eq_zero_or_pos idx with rfl | hidx
    · exact shiftLoop_zero size fuel _ _
    · obtain ⟨shifted, hloop, -⟩ := shiftLoop_spec hidx size
        (show vector.size - size < vector.size - size + 2 by omega) vector.data
      simp [shiftRight, hloop] at hnone
  · intro hnone
    simp [shiftRight, hnone]

theorem shiftRight_zero (vector : LinkedVector T) (size : ℕ) : vector.shiftRight 0 size = none := by
  simp [shiftRight, shiftLoop_zero]

/-- `shift_right` of a vector whose size counts the new elements already. -/
theorem shiftRight_spec (vector : LinkedVector T) (size : ℕ) {idx n : ℕ} (hpos : 0 < idx)
    (hidx : idx ≤ n) :
    ∃ data, shiftRight { vector with size := n + size } idx size =
        some { vector with size := n + size, data := data } ∧
      data.allocated = vector.data.allocated ∧
      (data.overrun = true ↔ vector.data.overrun = true ∨ vector.data.allocated ≤ n + size) ∧
      ∀ i, data.cells i = if idx + size ≤ i ∧ i ≤ n + size then vector.data.cells (i - size)
        else vector.data.cells i := by
  obtain ⟨data, hloop, halloc, hover, hcells⟩ := shiftLoop_spec hpos size
    (show n < n + 2 by omega) vector.data
  refine ⟨data, ?_, halloc, ?_, hcells⟩
  · simp [shiftRight, hloop]
  · rw [hover]
    apply or_congr_right
    omega

structure Resized (vector vector' : LinkedVector T) (size : ℕ) : Prop where
  capacity_eq : vector'.capacity = vector.capacity
  allocated_eq : vector'.data.allocated = vector.data.allocated
  size_eq : vector'.size = size

theorem Resized.size_le {vector vector' : LinkedVector T} {size : ℕ}
    (h : Resized vector vector' size) (hsize : size ≤ vector.capacity) :
    vector'.size ≤ vector'.capacity := by
  rw [h.size_eq, h.capacity_eq]
  exact hsize

theorem elements_eq_iff {vector : LinkedVector T} {l : List T} :
    vector.elements = l ↔
      l.length = vector.size ∧ ∀ i, i < vector.size → l[i]? = some (vector.data.cells i) :=
  Slots.contents_eq_iff

variable {vector : LinkedVector T} {l : List T}

theorem pushBack_spec (hl : vector.elements = l) (hover : vector.data.overrun = false)
    (hroom : vector.size + 1 ≤ vector.capacity) (value : T) :
    ∃ vector', vector.pushBack value = (vector', true) ∧
      Resized vector vector' (vector.size + 1) ∧ vector'.elements = l ++ [value] ∧
      (vector'.data.overrun = false ↔ vector.size < vector.data.allocated) := by
  obtain ⟨hlength, hcells⟩ := elements_eq_iff.mp hl
  refine ⟨_, if_pos hroom, ⟨rfl, rfl, rfl⟩, ?_, ?_⟩
  · refine elements_eq_iff.mpr ⟨by simp [hlength], ?_⟩
    intro i hi
    rw [Slots.write_cells]
    by_cases hlast : i = vector.size
    · rw [if_pos hlast, hlast, ← hlength, List.getElem?_concat_length]
    · have hi : i < vector.size := by
        change i < vector.size + 1 at hi
        omega
      rw [if_neg hlast, List.getElem?_append_left (by omega), hcells i hi]
  · rw [Slots.write_overrun, hover]
    simp

theorem insert_zero (hroom : vector.size + 1 ≤ vector.capacity) (value : T) :
    vector.insert 0 value = none := by
  rw [insert, if_pos hroom, shiftRight_zero]
  rfl

/-- An insertion with room puts the value at its index; the shift to the right writes one element
too far, which stays in the block if there is one more. -/
theorem insert_spec (hl : vector.elements = l) (hover : vector.data.overrun = false)
    (hroom : vector.size + 1 ≤ vector.capacity) {idx : ℕ} (hpos : 0 < idx)
    (hidx : idx ≤ vector.size) (value : T) :
    ∃ vector', vector.insert idx value = some (vector', true) ∧
      Resized vector vector' (vector.size + 1) ∧ vector'.elements = l.insertIdx idx value ∧
      (vector'.data.overrun = false ↔ vector.size + 1 < vector.data.allocated) := by
  obtain ⟨hlength, hcells⟩ := elements_eq_iff.mp hl
  obtain ⟨data, hshift, halloc, hshifted, hdata⟩ :=
    shiftRight_spec vector 1 hpos hidx
  refine ⟨{ vector with size := vector.size + 1, data := data.write idx value }, ?_,
    ⟨rfl, halloc, rfl⟩, ?_, ?_⟩
  · rw [insert, if_pos hroom, hshift]
    rfl
  · refine elements_eq_iff.mpr ⟨?_, ?_⟩
    · change (l.insertIdx idx value).length = vector.size + 1
      rw [List.length_insertIdx_of_le_length (by omega), hlength]
    · intro i hi
      change i < vector.size + 1 at hi
      rw [Slots.write_cells, hdata]
      rcases Nat.lt_trichotomy i idx with hlt | rfl | hgt
      · rw [if_neg (by omega), if_neg (by omega), List.getElem?_insertIdx_of_lt hlt,
          hcells i (by omega)]
      · rw [if_pos rfl, List.getElem?_insertIdx_self, if_pos (by omega)]
      · rw [if_neg (by omega), if_pos (by omega), List.getElem?_insertIdx_of_gt hgt,
          hcells _ (by omega)]
  · rw [← Bool.not_eq_true, Slots.write_overrun, Bool.or_eq_true, hshifted, hover, halloc,
      decide_eq_true_eq]
    simp
    omega

variable [Inhabited T]

theorem insertSpan_zero {values : List T}
    (hroom : vector.size + values.length ≤ vector.capacity) :
    vector.insertSpan 0 values = none := by
  rw [insertSpan, if_pos hroom, shiftRight_zero]
  rfl

/-- A span is copied only up to its own length, as a position of the vector: the values from there
on are right if the slots have them already. -/
theorem insertSpan_spec (hl : vector.elements = l) (hover : vector.data.overrun = false)
    {values : List T} (hroom : vector.size + values.length ≤ vector.capacity) {idx : ℕ}
    (hpos : 0 < idx) (hidx : idx ≤ vector.size) :
    ∃ vector', vector.insertSpan idx values = some (vector', true) ∧
      Resized vector vector' (vector.size + values.length) ∧
      (vector'.elements = l.take idx ++ values ++ l.drop idx ↔
        ∀ i (hi : i < values.length), values.length ≤ idx + i →
          vector.data.cells (idx + i) = values[i]) ∧
      (vector'.data.overrun = false ↔
        vector.size + values.length < vector.data.allocated) := by
  obtain ⟨hlength, hcells⟩ := elements_eq_iff.mp hl
  obtain ⟨data, hshift, halloc, hshifted, hdata⟩ :=
    shiftRight_spec vector values.length hpos hidx
  let copied := data.fill (fun c => values.getD (c - idx) default) idx (values.length - idx)
  have hcopied : ∀ i, copied.cells i =
      if idx ≤ i ∧ i < values.length then values.getD (i - idx) default else data.cells i := by
    intro i
    rw [Slots.fill_cells]
    apply if_congr _ rfl rfl
    omega
  refine ⟨{ vector with size := vector.size + values.length, data := copied }, ?_,
    ⟨rfl, (Slots.fill_allocated ..).trans halloc, rfl⟩, ?_, ?_⟩
  · rw [insertSpan, if_pos hroom, hshift]
    rfl
  · constructor
    · intro helements i hi hlast
      have hread := (elements_eq_iff.mp helements).2 (idx + i)
        (show idx + i < vector.size + values.length by omega)
      rw [List.append_assoc, List.getElem?_append_right (by grind),
        List.getElem?_append_left (by grind)] at hread
      change _ = some (copied.cells (idx + i)) at hread
      rw [hcopied, if_neg (by omega), hdata, if_neg (by omega), List.length_take, hlength,
        Nat.min_eq_left hidx, Nat.add_sub_cancel_left, List.getElem?_eq_getElem hi] at hread
      exact (Option.some.inj hread).symm
    · intro hlast
      refine elements_eq_iff.mpr ⟨by grind, ?_⟩
      intro i hi
      change i < vector.size + values.length at hi
      change _ = some (copied.cells i)
      rw [hcopied, List.append_assoc]
      by_cases hbefore : i < idx
      · rw [if_neg (by omega), hdata, if_neg (by omega), List.getElem?_append_left (by grind),
          List.getElem?_take_of_lt hbefore, hcells i (by omega)]
      · rw [List.getElem?_append_right (by grind), List.length_take, hlength, Nat.min_eq_left hidx]
        by_cases hspan : i < idx + values.length
        · rw [List.getElem?_append_left (by omega), List.getElem?_eq_getElem (by omega)]
          by_cases hdone : i < values.length
          · rw [if_pos ⟨by omega, hdone⟩, List.getD_eq_getElem?_getD,
              List.getElem?_eq_getElem (by omega), Option.getD_some]
          · have hkept := hlast (i - idx) (by omega) (by omega)
            rw [if_neg (by omega), hdata, if_neg (by omega), ← hkept]
            congr 2
            omega
        · rw [List.getElem?_append_right (by omega), List.getElem?_drop, if_neg (by omega), hdata,
            if_pos (by omega), ← hcells _ (by omega)]
          congr 1
          omega
  · rw [← Bool.not_eq_true, Slots.fill_overrun, hshifted, hover, halloc]
    simp
    omega

/-- A removal inside the vector takes the elements out and writes nowhere else. -/
theorem remove_spec (hl : vector.elements = l) (hover : vector.data.overrun = false)
    (halloc : vector.size ≤ vector.data.allocated) {idx size : ℕ}
    (hidx : idx + size ≤ vector.size) :
    Resized vector (vector.remove idx size) (vector.size - size) ∧
      (vector.remove idx size).elements = l.take idx ++ l.drop (idx + size) ∧
      (vector.remove idx size).data.overrun = false := by
  obtain ⟨hlength, hcells⟩ := elements_eq_iff.mp hl
  refine ⟨⟨rfl, ?_, rfl⟩, elements_eq_iff.mpr ⟨?_, ?_⟩, ?_⟩
  · rw [remove, Slots.fill_allocated, Slots.moveDown_allocated]
  · change _ = vector.size - size
    rw [List.length_append, List.length_take, List.length_drop]
    omega
  · intro i hi
    change i < vector.size - size at hi
    rw [remove, Slots.fill_cells, if_neg (by omega), Slots.moveDown_cells (by omega)]
    by_cases hbefore : i < idx
    · rw [if_neg (by omega), List.getElem?_append_left (by grind),
        List.getElem?_take_of_lt hbefore, hcells i (by omega)]
    · rw [if_pos (by omega), List.getElem?_append_right (by grind), List.length_take, hlength,
        Nat.min_eq_left (by omega), List.getElem?_drop, ← hcells _ (by omega)]
      congr 1
      omega
  · rw [← Bool.not_eq_true, remove, Slots.fill_overrun, Slots.moveDown_allocated,
      Slots.moveDown_overrun _ _ (by omega), hover]
    simp
    omega

theorem clear_spec (hover : vector.data.overrun = false) :
    Resized vector vector.clear 0 ∧ vector.clear.elements = [] ∧
      (vector.clear.data.overrun = false ↔ vector.capacity ≤ vector.data.allocated) := by
  refine ⟨⟨rfl, Slots.fill_allocated .., rfl⟩, rfl, ?_⟩
  rw [clear, ← Bool.not_eq_true, Slots.fill_overrun, hover]
  simp
  omega

end LinkedVector

namespace LinkedDynVector

variable {T : Type} {vector : LinkedVector T}

theorem le_nextCapacity (need next : ℕ) (hnext : 0 < next) :
    need ≤ nextCapacity need next hnext := by
  fun_induction nextCapacity need next hnext with
  | case1 next hnext hgt ih => exact ih
  | case2 next hnext hle => omega

/-- The new vector is allocated for its whole capacity. -/
theorem enlarge_spec {requested : ℕ} (memory : ℕ → T)
    (hsize : vector.size ≤ vector.capacity + requested) :
    (enlarge vector requested memory).size = vector.size ∧
      (enlarge vector requested memory).elements = vector.elements ∧
      (enlarge vector requested memory).data.overrun = vector.data.overrun ∧
      (enlarge vector requested memory).data.allocated =
        (enlarge vector requested memory).capacity ∧
      vector.capacity + requested ≤ (enlarge vector requested memory).capacity := by
  have hneed : vector.capacity + requested ≤ (enlarge vector requested memory).capacity :=
    le_nextCapacity _ _ _
  refine ⟨rfl, Slots.contents_congr ?_, ?_, Slots.fill_allocated .., hneed⟩
  · intro i hi
    change i < vector.size at hi
    rw [enlarge, Slots.fill_cells, if_pos (by omega)]
  · have hinside : ¬ (enlarge vector requested memory).capacity < 0 + vector.size := by omega
    rw [Bool.eq_iff_iff, enlarge, Slots.fill_overrun]
    constructor
    · rintro (hover | ⟨-, hpast⟩)
      · exact hover
      · exact absurd hpast hinside
    · exact Or.inl

theorem ensure_spec (size : ℕ) (memory : ℕ → T) (halloc : vector.size ≤ vector.data.allocated) :
    (ensure vector size memory).size = vector.size ∧
      (ensure vector size memory).elements = vector.elements ∧
      (ensure vector size memory).data.overrun = vector.data.overrun ∧
      vector.size + size ≤ (ensure vector size memory).capacity ∧
      vector.size ≤ (ensure vector size memory).data.allocated := by
  by_cases hfull : vector.size + size > vector.capacity
  · rw [ensure, if_pos hfull]
    obtain ⟨hsize, helements, hover, hallocated, hneed⟩ :=
      enlarge_spec memory
        (show vector.size ≤ vector.capacity + (vector.size + size - vector.capacity) by omega)
    exact ⟨hsize, helements, hover, by omega, by omega⟩
  · rw [ensure, if_neg hfull]
    exact ⟨rfl, rfl, rfl, by omega, halloc⟩

theorem ensure_zero (memory : ℕ → T) (hsize : vector.size ≤ vector.capacity) :
    ensure vector 0 memory = vector :=
  if_neg (by omega)

/-- The copy has the elements, in a block of the size and not of the capacity. -/
theorem deepCopyTo_spec (vector : LinkedVector T) (helper : T → T) (memory : ℕ → T) :
    (deepCopyTo vector helper memory).elements = vector.elements.map helper ∧
      (deepCopyTo vector helper memory).data.overrun = false ∧
      (deepCopyTo vector helper memory).data.allocated = vector.size := by
  refine ⟨?_, ?_, Slots.fill_allocated ..⟩
  · rw [LinkedVector.elements, LinkedVector.elements, Slots.contents, Slots.contents,
      List.map_map]
    apply List.map_congr_left
    intro i hi
    have hi : i < vector.size := List.mem_range.mp hi
    rw [deepCopyTo, Slots.fill_cells, if_pos (by omega)]
    rfl
  · rw [← Bool.not_eq_true, deepCopyTo, Slots.fill_overrun]
    simp

end LinkedDynVector

namespace LinkedVector

variable {T : Type}

namespace Tracked

structure Kept (entry : Tracked T) : Prop extends entry.Right where
  size_le_allocated : entry.vector.size ≤ entry.vector.data.allocated

variable {entry : Tracked T} {edit : Edit T}

theorem ensured_spec (h : entry.Kept) (hadmits : entry.Admits edit) (memory : ℕ → T) :
    (entry.ensured memory edit).size = entry.vector.size ∧
      (entry.ensured memory edit).elements = entry.content ∧
      (entry.ensured memory edit).data.overrun = false ∧
      entry.vector.size + edit.added ≤ (entry.ensured memory edit).capacity ∧
      entry.vector.size ≤ (entry.ensured memory edit).data.allocated := by
  unfold ensured
  cases hcls : entry.cls with
  | dyn =>
      obtain ⟨hsize, helements, hover, hcapacity, halloc⟩ :=
        LinkedDynVector.ensure_spec edit.added memory h.size_le_allocated
      exact ⟨hsize, helements.trans h.elements_eq, hover.trans h.not_overrun, hcapacity, halloc⟩
  | fixed => exact ⟨rfl, h.elements_eq, h.not_overrun, hadmits.2 hcls, h.size_le_allocated⟩

theorem ensured_of_added (h : entry.Kept) (hadded : edit.added = 0) (memory : ℕ → T) :
    entry.ensured memory edit = entry.vector := by
  unfold ensured
  cases entry.cls with
  | dyn =>
      rw [hadded]
      exact LinkedDynVector.ensure_zero memory h.size_le
  | fixed => rfl

variable [Inhabited T]

/-- An operation of either class is that of a `LinkedVector`, once `ensure` has been called. -/
theorem run_eq (h : entry.Kept) (memory : ℕ → T) (edit : Edit T) :
    entry.run memory edit = (edit.onFixed (entry.ensured memory edit)).map Prod.fst := by
  unfold run
  cases hcls : entry.cls with
  | fixed => rw [ensured, hcls]
  | dyn =>
      cases edit with
      | pushBack value => rw [ensured, hcls]; rfl
      | insert idx value => rw [ensured, hcls]; rfl
      | insertSpan idx data => rw [ensured, hcls]; rfl
      | remove idx size => rw [ensured_of_added h rfl memory]; rfl
      | clear => rw [ensured_of_added h rfl memory]; rfl

omit [Inhabited T] in
theorem right_iff {cls : VectorClass} {vector : LinkedVector T} {content : List T}
    (hsize : vector.size ≤ vector.capacity) :
    Right ⟨cls, vector, content⟩ ↔ vector.elements = content ∧ vector.data.overrun = false :=
  ⟨fun h => ⟨h.elements_eq, h.not_overrun⟩, fun h => ⟨h.1, hsize, h.2⟩⟩

/-- An operation either does not end, or leaves a vector that is right exactly if it was sound. -/
theorem run_spec (h : entry.Kept) (hadmits : entry.Admits edit) (memory : ℕ → T) :
    (entry.run memory edit = none ∧ ¬ entry.Sound memory edit) ∨
      ∃ vector, entry.run memory edit = some vector ∧
        (Right ⟨entry.cls, vector, edit.onList entry.content⟩ ↔ entry.Sound memory edit) ∧
        (entry.Sound memory edit → vector.size ≤ vector.data.allocated) := by
  obtain ⟨hsize, helements, hover, hroom, halloc⟩ := ensured_spec h hadmits memory
  rw [run_eq h]
  have hin := hadmits.1
  rw [← hsize] at hroom hin halloc
  cases edit with
  | pushBack value =>
      obtain ⟨vector, hrun, hresized, hcontent, hinside⟩ :=
        pushBack_spec helements hover hroom value
      refine Or.inr ⟨vector, congrArg (Option.map Prod.fst ∘ some) hrun, ?_, ?_⟩
      · rw [right_iff (hresized.size_le hroom), hinside, hsize]
        exact and_iff_right hcontent
      · intro hsound
        rw [hresized.size_eq, hresized.allocated_eq, hsize]
        exact hsound
  | insert idx value =>
      rcases Nat.eq_zero_or_pos idx with rfl | hpos
      · refine Or.inl ⟨congrArg (Option.map Prod.fst) (insert_zero hroom value), ?_⟩
        exact fun hsound => absurd hsound.1 (Nat.lt_irrefl 0)
      · obtain ⟨vector, hrun, hresized, hcontent, hinside⟩ :=
          insert_spec helements hover hroom hpos hin value
        refine Or.inr ⟨vector, congrArg (Option.map Prod.fst) hrun, ?_, ?_⟩
        · rw [right_iff (hresized.size_le hroom), hinside, hsize]
          exact (and_iff_right hcontent).trans (and_iff_right hpos).symm
        · intro hsound
          rw [hresized.size_eq, hresized.allocated_eq, hsize]
          exact Nat.le_of_lt hsound.2
  | insertSpan idx data =>
      rcases Nat.eq_zero_or_pos idx with rfl | hpos
      · refine Or.inl ⟨congrArg (Option.map Prod.fst) (insertSpan_zero hroom), ?_⟩
        exact fun hsound => absurd hsound.1 (Nat.lt_irrefl 0)
      · obtain ⟨vector, hrun, hresized, hcontent, hinside⟩ :=
          insertSpan_spec helements hover hroom hpos hin
        refine Or.inr ⟨vector, congrArg (Option.map Prod.fst) hrun, ?_, ?_⟩
        · rw [right_iff (hresized.size_le hroom), hinside, hsize]
          refine (and_congr_left' hcontent).trans ?_
          exact and_comm.trans (and_iff_right hpos).symm
        · intro hsound
          rw [hresized.size_eq, hresized.allocated_eq, hsize]
          exact Nat.le_of_lt hsound.2.1
  | remove idx size =>
      rw [ensured_of_added h rfl memory] at helements hover hin halloc ⊢
      obtain ⟨hresized, hcontent, hinside⟩ := remove_spec helements hover halloc hin
      refine Or.inr ⟨_, rfl, ?_, ?_⟩
      · rw [right_iff (hresized.size_le (Nat.le_trans (Nat.sub_le _ _) h.size_le))]
        exact iff_of_true ⟨hcontent, hinside⟩ True.intro
      · intro _
        rw [hresized.size_eq, hresized.allocated_eq]
        exact Nat.le_trans (Nat.sub_le _ _) halloc
  | clear =>
      rw [ensured_of_added h rfl memory] at hover ⊢
      obtain ⟨hresized, hcontent, hinside⟩ := clear_spec hover
      refine Or.inr ⟨_, rfl, ?_, ?_⟩
      · rw [right_iff (hresized.size_le (Nat.zero_le _)), hinside]
        exact and_iff_right hcontent
      · intro _
        rw [hresized.size_eq]
        exact Nat.zero_le _

omit [Inhabited T] in
/-- `deep_copy_to` allocates the slots of the elements, and no more. -/
theorem deepCopyTo_kept (h : entry.Kept) (helper : T → T) (memory : ℕ → T) :
    Kept ⟨.dyn, LinkedDynVector.deepCopyTo entry.vector helper memory,
      entry.content.map helper⟩ := by
  obtain ⟨helements, hover, halloc⟩ :=
    LinkedDynVector.deepCopyTo_spec entry.vector helper memory
  refine ⟨⟨?_, h.size_le, hover⟩, Nat.le_of_eq halloc.symm⟩
  rw [helements, h.elements_eq]

theorem create_kept (cls : VectorClass) (capacity : ℕ) (memory : ℕ → T) :
    (create cls capacity memory).Kept := by
  cases cls with
  | dyn => exact ⟨⟨rfl, Nat.zero_le _, rfl⟩, Nat.zero_le _⟩
  | fixed =>
      refine ⟨⟨rfl, Nat.zero_le _, ?_⟩, Nat.zero_le _⟩
      change (Slots.fill _ _ _ _).overrun = false
      rw [← Bool.not_eq_true, Slots.fill_overrun]
      simp

end Tracked

namespace Session

variable [Inhabited T] {session session' : Session T}

structure Kept (session : Session T) : Prop where
  ended : session.ended = true
  vectors : ∀ entry ∈ session.vectors, entry.Kept

/-- A call within the condition changes the vectors as it changes the lists. -/
theorem step_kept (op : Op T) (h : session.Kept) (hsound : session.StepSound op)
    (hstep : session.step op = some session') : session'.Kept := by
  cases op with
  | create cls capacity memory =>
      cases hstep
      refine ⟨h.ended, ?_⟩
      intro entry hentry
      rcases List.mem_append.mp hentry with hold | hnew
      · exact h.vectors entry hold
      · rw [List.mem_singleton.mp hnew]
        exact Tracked.create_kept cls capacity memory
  | edit target edit memory =>
      obtain ⟨entry, hentry, hstep⟩ := Option.bind_eq_some_iff.mp hstep
      obtain ⟨hadmits, hstep⟩ := Option.ite_none_right_eq_some.mp hstep
      have hkept := h.vectors entry (List.mem_of_getElem? hentry)
      have hsound := hsound entry hentry hadmits
      rcases Tracked.run_spec hkept hadmits memory with ⟨-, hunsound⟩ | ⟨vector, hrun, hright, hsize⟩
      · exact absurd hsound hunsound
      · rw [hrun] at hstep
        cases hstep
        refine ⟨h.ended, ?_⟩
        intro entry' hentry'
        rcases List.mem_or_eq_of_mem_set hentry' with hold | rfl
        · exact h.vectors entry' hold
        · exact ⟨hright.mpr hsound, hsize hsound⟩
  | deepCopyTo target helper memory =>
      obtain ⟨entry, hentry, hstep⟩ := Option.bind_eq_some_iff.mp hstep
      obtain ⟨hcls, hstep⟩ := Option.ite_none_right_eq_some.mp hstep
      cases hstep
      refine ⟨h.ended, ?_⟩
      intro entry' hentry'
      rcases List.mem_append.mp hentry' with hold | hnew
      · exact h.vectors entry' hold
      · rw [List.mem_singleton.mp hnew]
        exact Tracked.deepCopyTo_kept (h.vectors entry (List.mem_of_getElem? hentry)) helper memory

/-- A step that is not sound leaves a session that is not right. -/
theorem step_breaks (op : Op T) (h : session.Kept) (hunsound : ¬ session.StepSound op) :
    ∃ session', session.step op = some session' ∧ ¬ session'.Right := by
  cases op with
  | create cls capacity memory => exact absurd True.intro hunsound
  | deepCopyTo target helper memory => exact absurd True.intro hunsound
  | edit target edit memory =>
      simp only [StepSound, not_forall] at hunsound
      obtain ⟨entry, hentry, hadmits, hunsound⟩ := hunsound
      have hkept := h.vectors entry (List.mem_of_getElem? hentry)
      rcases Tracked.run_spec hkept hadmits memory with ⟨hrun, -⟩ | ⟨vector, hrun, hright, -⟩
      · refine ⟨{ session with ended := false }, ?_, ?_⟩
        · simp [step, hentry, hadmits, hrun]
        · exact fun hall => Bool.false_ne_true hall.1
      · refine ⟨{ session with
          vectors := session.vectors.set target
            ⟨entry.cls, vector, edit.onList entry.content⟩ }, ?_, ?_⟩
        · simp [step, hentry, hadmits, hrun]
        · intro hall
          have htarget : target < session.vectors.length :=
            (List.getElem?_eq_some_iff.mp hentry).1
          exact hunsound (hright.mp (hall.2 _ (List.mem_set htarget _)))

omit [Inhabited T] in
theorem Kept.right (h : session.Kept) : session.Right :=
  ⟨h.ended, fun entry hentry => (h.vectors entry hentry).toRight⟩

omit [Inhabited T] in
theorem start_kept : (start : Session T).Kept :=
  ⟨rfl, fun _ hentry => absurd hentry List.not_mem_nil⟩

/-- Over every run: the vectors are the lists they should be, within their storage, in every state
exactly when every step meets the condition of its operation. -/
theorem vectors_right_iff (ops : List (Op T)) :
    EveryState step Right start ops ↔ EveryStep step StepSound start ops := by
  have hkeep : ∀ (session : Session T) (op : Op T) (session' : Session T), session.Kept →
      session.StepSound op → session.step op = some session' → session'.Kept :=
    fun session op session' h hsound hstep => step_kept op h hsound hstep
  constructor
  · intro hrun
    refine EveryStep.of_broken (R := fun _ _ => True) hkeep ?_ start_kept hrun
      (EveryStep.trivial_of (fun _ _ => True.intro) _ _)
    exact fun session op h _ _ hunsound => step_breaks op h hunsound
  · exact EveryState.of_invariant hkeep (fun session h => h.right) start_kept

/-- An insertion at the front does not end. -/
theorem insert_front_hangs :
    ¬ ∀ ops : List (Op ℕ), EveryState step Right start ops := by
  intro h
  have hrun := h [.create .dyn 4 fun _ => 0, .edit 0 (.pushBack 1) fun _ => 0,
    .edit 0 (.insert 0 5) fun _ => 0]
  have hlast := ((hrun.2 _ rfl).2 _ rfl).2 _ rfl
  exact Bool.false_ne_true hlast.1

end Session

end LinkedVector

end Memoria

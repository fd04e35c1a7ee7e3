import Memoria.OptBuffer
import Mathlib.Data.List.Induction
import Mathlib.Data.List.ReduceOption
import Mathlib.Order.Nat

namespace Memoria

open Lib

/-! Buffers of optional values as lists of rows. -/

namespace FSSeq

variable {Symbol : Type} [DecidableEq Symbol] {seq : FSSeq Symbol}

def Fresh (seq : FSSeq Symbol) : Prop :=
  ∀ index, seq.index = some index → seq.reindex.index = some index

theorem valuesPerBranch_pos : 0 < valuesPerBranch := by
  unfold valuesPerBranch
  decide

theorem fresh_of_index (h : seq.index = none) : seq.Fresh := by
  intro index hindex
  rw [h] at hindex
  cases hindex

@[simp]
theorem symbols_reindex : seq.reindex.symbols = seq.symbols := by
  unfold reindex
  split_ifs
  · rfl
  · rfl

theorem index_reindex_congr {other : FSSeq Symbol} (h : seq.symbols = other.symbols) :
    seq.reindex.index = other.reindex.index := by
  obtain ⟨symbols, index⟩ := seq
  obtain ⟨symbols', index'⟩ := other
  cases h
  simp only [reindex, size]
  split_ifs
  · rfl
  · rfl

theorem fresh_reindex : seq.reindex.Fresh := by
  intro index hindex
  rw [← hindex]
  exact index_reindex_congr symbols_reindex

theorem Fresh.counts (h : seq.Fresh) {index : List (Symbol → Nat)} (hindex : seq.index = some index)
    (symbol : Symbol) :
    index.map (· symbol) = blockCounts valuesPerBranch symbol seq.symbols := by
  have hfresh := h index hindex
  unfold reindex at hfresh
  split_ifs at hfresh
  · rw [← Option.some.inj hfresh, List.map_map]
    rfl

theorem Fresh.rank_eq (h : seq.Fresh) {stop : Nat} (hstop : stop ≤ seq.size) (symbol : Symbol) :
    seq.rank stop symbol = some ((seq.symbols.take stop).count symbol) := by
  rw [rank, if_pos hstop]
  split
  · next index hindex =>
      rw [count_take_eq_blocks valuesPerBranch_pos hstop, ← h.counts hindex]
      simp only [List.map_take]
  · rfl

theorem Fresh.rankRange_eq (h : seq.Fresh) {start stop : Nat} (hle : start ≤ stop)
    (hstop : stop ≤ seq.size) (symbol : Symbol) :
    seq.rankRange start stop symbol
      = some (((seq.symbols.drop start).take (stop - start)).count symbol) := by
  have hsplit : (seq.symbols.take stop).count symbol = (seq.symbols.take start).count symbol
      + ((seq.symbols.drop start).take (stop - start)).count symbol := by
    rw [← List.count_append, ← List.take_add, Nat.add_sub_cancel' hle]
  simp only [rankRange, h.rank_eq hstop, h.rank_eq (Nat.le_trans hle hstop), Option.bind_eq_bind,
    Option.bind_some, hsplit, Nat.le_add_right, if_true, Nat.add_sub_cancel_left]

theorem Fresh.selectFw_eq (h : seq.Fresh) (symbol : Symbol) (k : Nat) :
    seq.selectFw symbol (k + 1) = select symbol seq.symbols k := by
  unfold selectFw
  split
  · next index hindex =>
      have hlength : index.length = (blockCounts valuesPerBranch symbol seq.symbols).length := by
        rw [← h.counts hindex symbol, List.length_map]
      rw [select_eq_blocks valuesPerBranch_pos, h.counts hindex, hlength]
      simp only [Nat.add_sub_cancel, Nat.sub_right_comm]
  · rfl

end FSSeq

namespace ValueArray

variable {V : Type}

/-- The loop ends at the position where `before` stops to hold. -/
theorem partitionPoint_eq {array : ValueArray V} {before : V → Bool} {point : Nat}
    (hbefore : ∀ i (h : i < array.length), before array[i] = true ↔ i < point) :
    ∀ {fuel first length : Nat}, length ≤ fuel → first ≤ point → point ≤ first + length →
      first + length ≤ array.length → partitionPoint array before fuel first length = point := by
  intro fuel
  induction fuel with
  | zero =>
      intro first length hfuel hfirst hpoint _
      simp only [partitionPoint]
      omega
  | succ fuel ih =>
      intro first length hfuel hfirst hpoint hend
      rw [partitionPoint]
      by_cases hzero : length = 0
      · rw [if_pos hzero]
        omega
      · have hhalf : first + length / 2 < array.length := by omega
        simp only [if_neg hzero, List.getElem?_eq_getElem hhalf]
        by_cases hlt : first + length / 2 < point
        · simp only [(hbefore _ hhalf).mpr hlt, if_true]
          apply ih <;> omega
        · have hnot : before array[first + length / 2] = false := by
            rw [← Bool.not_eq_true, hbefore _ hhalf]
            exact hlt
          simp only [hnot, Bool.false_eq_true, if_false]
          apply ih <;> omega

/-- In a sorted array the loop finds what a scan finds. -/
theorem partitionPoint_eq_findIdx {array : ValueArray V} {before : V → Bool}
    (hsorted : array.Pairwise fun v w => before w = true → before v = true) :
    partitionPoint array before array.length 0 array.length
      = array.findIdx fun value => !before value := by
  apply partitionPoint_eq
  · intro i hi
    constructor
    · intro hbefore
      by_contra hge
      have hfound : array.findIdx (fun value => !before value) < array.length := by omega
      have hnot := List.findIdx_getElem (w := hfound)
      obtain heq | hlt := Nat.eq_or_lt_of_le (Nat.le_of_not_lt hge)
      · simp only [heq, hbefore] at hnot
        cases hnot
      · have hpair := List.pairwise_iff_getElem.mp hsorted _ _ hfound hi hlt hbefore
        rw [hpair] at hnot
        cases hnot
    · intro hlt
      have hnot := List.not_of_lt_findIdx hlt
      simpa using hnot
  · exact Nat.le_refl _
  · exact Nat.zero_le _
  · rw [Nat.zero_add]
    exact List.findIdx_le_length
  · exact Nat.le_of_eq (Nat.zero_add _)

theorem insertEntries_append (before values after : List V) :
    ValueArray.insertEntries (before ++ after) before.length values
      = some (before ++ values ++ after) := by
  rw [insertEntries, if_pos (by simp), List.take_left, List.drop_left]

theorem removeSpace_append (before values after : List V) :
    ValueArray.removeSpace (before ++ values ++ after) before.length
      (before.length + values.length) = some (before ++ after) := by
  rw [removeSpace, if_pos (by simp), List.append_assoc, List.take_left, ← List.append_assoc,
    ← List.length_append, List.drop_left]

variable [LinearOrder V]

theorem findGEForward_eq {array : ValueArray V} (hsorted : array.Pairwise (· ≤ ·)) (key : V) :
    array.findGEForward key = array.findIdx (key ≤ ·) := by
  rw [findGEForward, partitionPoint_eq_findIdx]
  · congr 1
    funext value
    rw [Bool.eq_iff_iff]
    simp
  · refine hsorted.imp ?_
    intro v w hle hlt
    simp only [decide_eq_true_eq] at hlt ⊢
    exact lt_of_le_of_lt hle hlt

theorem findGTForward_eq {array : ValueArray V} (hsorted : array.Pairwise (· ≤ ·)) (key : V) :
    array.findGTForward key = array.findIdx (key < ·) := by
  rw [findGTForward, partitionPoint_eq_findIdx]
  · congr 1
    funext value
    rw [Bool.eq_iff_iff]
    simp
  · refine hsorted.imp ?_
    intro v w hle hge
    simp only [Bool.not_eq_true', decide_eq_false_iff_not, not_lt] at hge ⊢
    exact le_trans hle hge

end ValueArray

/-! ### Rows

The rows say which bits are set and what the array holds. -/

section Rows

variable {V : Type}

theorem count_isSome (rows : List (Option V)) :
    (rows.map Option.isSome).count true = rows.reduceOption.length := by
  rw [List.reduceOption_length_eq, List.count, List.countP_map, List.countP_eq_length_filter]
  congr 2
  funext row
  cases row <;> rfl

theorem count_take_isSome (rows : List (Option V)) (i : Nat) :
    ((rows.map Option.isSome).take i).count true = (rows.take i).reduceOption.length := by
  rw [← List.map_take, count_isSome]

/-- The present row that `select` finds holds the value with its number. -/
theorem select_isSome {rows : List (Option V)} {k : Nat} {value : V}
    (h : rows.reduceOption[k]? = some value) :
    ∃ i, select true (rows.map Option.isSome) k = some i ∧ rows[i]? = some (some value) := by
  induction rows generalizing k with
  | nil => cases h
  | cons row rows ih =>
      cases row with
      | none =>
          obtain ⟨i, hselect, hi⟩ := ih (k := k) h
          exact ⟨i + 1, by simp [select, hselect], by simpa using hi⟩
      | some v =>
          cases k with
          | zero => exact ⟨0, by simp [select], by simpa using h⟩
          | succ k =>
              obtain ⟨i, hselect, hi⟩ := ih (k := k) (by simpa using h)
              exact ⟨i + 1, by simp [select, hselect], by simpa using hi⟩

/-- The first value with a property is the value of the first row with it. -/
theorem select_findIdx (rows : List (Option V)) (p : V → Bool) :
    (select true (rows.map Option.isSome) (rows.reduceOption.findIdx p)).getD rows.length
      = rows.findIdx (Option.any p) := by
  induction rows with
  | nil => rfl
  | cons row rows ih =>
      cases row with
      | none =>
          rw [List.findIdx_cons, Option.any_none, cond_false, ← ih]
          simp only [List.map_cons, Option.isSome_none, List.reduceOption_cons_of_none, select,
            Bool.false_eq_true, if_false, List.length_cons]
          cases select true (rows.map Option.isSome) (rows.reduceOption.findIdx p) <;> rfl
      | some v =>
          rw [List.findIdx_cons, List.reduceOption_cons_of_some, List.findIdx_cons]
          cases hp : p v with
          | true => simp [select, Option.any, hp]
          | false =>
              rw [Option.any_some, hp, cond_false, cond_false, ← ih]
              simp only [List.map_cons, Option.isSome_some, select, if_true, List.length_cons]
              cases select true (rows.map Option.isSome) (rows.reduceOption.findIdx p) <;> rfl

theorem mapM_range_eq {values : List V} {f : Nat → Option V}
    (h : ∀ k value, values[k]? = some value → f k = some value) :
    (List.range values.length).mapM f = some values := by
  induction values using List.reverseRecOn with
  | nil => rfl
  | append_singleton values value ih =>
      rw [List.length_append, List.length_singleton, List.range_succ, List.mapM_append, ih]
      · have hlast := h values.length value (by simp)
        simp [hlast]
      · intro k v hk
        apply h
        rw [List.getElem?_append_left (List.getElem?_eq_some_iff.mp hk).1]
        exact hk

end Rows

namespace OptBuffer

variable {V : Type}

structure Marks (bitmap : FSSeq Bool) (rows : List (Option V)) : Prop where
  symbols : bitmap.symbols = rows.map Option.isSome
  fresh : bitmap.Fresh

structure Holds (buffer : OptBuffer V) (rows : List (Option V)) : Prop where
  bitmap : Marks buffer.bitmap rows
  array : buffer.array = rows.reduceOption

variable {bitmap bitmap' : FSSeq Bool} {buffer buffer' other other' : OptBuffer V}
  {rows rows' : List (Option V)}

theorem Marks.size_eq (h : Marks bitmap rows) : bitmap.size = rows.length := by
  rw [FSSeq.size, h.symbols, List.length_map]

theorem Marks.arrayIdx_eq (h : Marks bitmap rows) {i : Nat} (hi : i ≤ rows.length) :
    arrayIdx bitmap i = some (rows.take i).reduceOption.length := by
  rw [arrayIdx, h.fresh.rank_eq (by rwa [h.size_eq]), h.symbols, count_take_isSome]

theorem Marks.arrayIdx_eq_some (h : Marks bitmap rows) {i j : Nat}
    (hi : arrayIdx bitmap i = some j) :
    i ≤ rows.length ∧ j = (rows.take i).reduceOption.length := by
  have hle : i ≤ rows.length := by
    rw [← h.size_eq]
    unfold arrayIdx FSSeq.rank at hi
    split_ifs at hi with hle
    exact hle
  rw [h.arrayIdx_eq hle] at hi
  exact ⟨hle, (Option.some.inj hi).symm⟩

theorem Marks.bitmapIdx_eq (h : Marks bitmap rows) (j : Nat) :
    bitmapIdx bitmap j = (select true (rows.map Option.isSome) j).getD rows.length := by
  rw [bitmapIdx, h.fresh.selectFw_eq, h.symbols, h.size_eq]

theorem Marks.get_eq (h : Marks bitmap rows) (row : Nat) :
    bitmap.get row = rows[row]?.map Option.isSome := by
  rw [FSSeq.get, h.symbols, List.getElem?_map]

theorem Marks.reindex (h : Marks bitmap rows) : Marks bitmap.reindex rows :=
  ⟨by rw [FSSeq.symbols_reindex, h.symbols], FSSeq.fresh_reindex⟩

theorem Marks.insert (h : Marks bitmap rows) {idx : Nat} {value : Option V}
    (hinsert : bitmap.insert idx value.isSome = some bitmap') :
    idx ≤ rows.length ∧ Marks bitmap' (rows.take idx ++ [value] ++ rows.drop idx) := by
  simp only [FSSeq.insert, FSSeq.insertData, Option.bind_eq_bind, Option.bind_eq_some_iff,
    Option.ite_none_right_eq_some, Option.pure_def, Option.some.injEq] at hinsert
  obtain ⟨_, ⟨hle, rfl⟩, rfl⟩ := hinsert
  refine ⟨by rwa [h.size_eq] at hle, ?_, FSSeq.fresh_reindex⟩
  simp [h.symbols]

theorem Marks.set (h : Marks bitmap rows) {idx : Nat} {value : Option V}
    (hset : bitmap.set idx value.isSome = some bitmap') :
    Marks bitmap'.reindex (rows.set idx value) := by
  simp only [FSSeq.set, Option.ite_none_right_eq_some, Option.some.injEq] at hset
  obtain ⟨_, rfl⟩ := hset
  refine ⟨?_, FSSeq.fresh_reindex⟩
  simp [h.symbols, List.map_set]

theorem Marks.replace (h : Marks bitmap rows) {idx : Nat} {old value : Option V}
    (hold : rows[idx]? = some old) (hsame : old.isSome = value.isSome) :
    Marks bitmap (rows.set idx value) := by
  refine ⟨?_, h.fresh⟩
  obtain ⟨hlt, rfl⟩ := List.getElem?_eq_some_iff.mp hold
  have hself : (rows.map Option.isSome).set idx rows[idx].isSome = rows.map Option.isSome := by
    rw [← List.map_set, List.set_getElem_self]
  rw [h.symbols, List.map_set, ← hsame, hself]

theorem Marks.remove (h : Marks bitmap rows) {start stop : Nat}
    (hremove : bitmap.remove start stop = some bitmap') :
    start ≤ stop ∧ Marks bitmap' (rows.take start ++ rows.drop stop) := by
  simp only [FSSeq.remove, Option.ite_none_right_eq_some, Option.some.injEq] at hremove
  obtain ⟨⟨hle, _⟩, rfl⟩ := hremove
  refine ⟨hle, ?_, FSSeq.fresh_reindex⟩
  simp [h.symbols]

theorem holds_empty : (empty : OptBuffer V).Holds [] :=
  ⟨⟨rfl, FSSeq.fresh_of_index rfl⟩, rfl⟩

theorem Holds.ones (h : buffer.Holds rows) :
    buffer.bitmap.symbols.count true = buffer.array.length := by
  rw [h.bitmap.symbols, h.array, count_isSome]

theorem Holds.array_eq (h : buffer.Holds rows) (i : Nat) :
    buffer.array = (rows.take i).reduceOption ++ (rows.drop i).reduceOption := by
  rw [h.array, ← List.reduceOption_append, List.take_append_drop]

/-- A row in the middle, with its value in the middle of the array. -/
theorem Holds.array_at (h : buffer.Holds rows) {idx : Nat} {value : Option V}
    (hidx : rows[idx]? = some value) :
    buffer.array = (rows.take idx).reduceOption ++ value.toList
      ++ (rows.drop (idx + 1)).reduceOption := by
  obtain ⟨hlt, hvalue⟩ := List.getElem?_eq_some_iff.mp hidx
  rw [h.array_eq idx, List.drop_eq_getElem_cons hlt, hvalue, List.append_assoc]
  cases value with
  | none => rfl
  | some v => rfl

theorem Holds.access_eq (h : buffer.Holds rows) (row : Nat) : buffer.access row = rows[row]? := by
  rw [access, h.bitmap.get_eq]
  cases hrow : rows[row]? with
  | none => rfl
  | some value =>
      obtain ⟨hlt, hvalue⟩ := List.getElem?_eq_some_iff.mp hrow
      cases value with
      | none => rfl
      | some v =>
          have hread : buffer.array[(rows.take row).reduceOption.length]? = some v := by
            rw [h.array_at hrow]
            simp
          simp only [Option.map_some, Option.isSome_some, Option.bind_eq_bind, Option.bind_some,
            if_true, h.bitmap.arrayIdx_eq (Nat.le_of_lt hlt), hread]
          rfl

theorem take_insert {idx : Nat} (hle : idx ≤ rows.length) (entries : List (Option V)) :
    (rows.take idx ++ entries ++ rows.drop idx).take idx = rows.take idx := by
  rw [List.append_assoc, List.take_append_of_le_length (by simp [hle]), List.take_take,
    Nat.min_self]

theorem Holds.insert (h : buffer.Holds rows) {idx : Nat} {value : Option V}
    (hinsert : buffer.insert idx value = some buffer') :
    buffer'.Holds (rows.take idx ++ [value] ++ rows.drop idx) := by
  cases value with
  | none =>
      simp only [OptBuffer.insert, Option.bind_eq_bind, Option.bind_eq_some_iff, Option.pure_def,
        Option.some.injEq] at hinsert
      obtain ⟨bitmap, hbitmap, rfl⟩ := hinsert
      refine ⟨(h.bitmap.insert hbitmap).2, ?_⟩
      rw [h.array_eq idx, List.reduceOption_append, List.reduceOption_append]
      simp
  | some value =>
      simp only [OptBuffer.insert, Option.bind_eq_bind, Option.bind_eq_some_iff, Option.pure_def,
        Option.some.injEq] at hinsert
      obtain ⟨bitmap, hbitmap, arrayIdx, hidx, array, harray, rfl⟩ := hinsert
      have hmarks : idx ≤ rows.length ∧
          Marks bitmap (rows.take idx ++ [some value] ++ rows.drop idx) := h.bitmap.insert hbitmap
      obtain ⟨hle, hmarks⟩ := hmarks
      obtain ⟨-, rfl⟩ := hmarks.arrayIdx_eq_some hidx
      rw [take_insert hle, h.array_eq idx, ValueArray.insertEntries_append] at harray
      cases harray
      refine ⟨hmarks, ?_⟩
      rw [List.reduceOption_append, List.reduceOption_append]
      rfl

theorem Holds.removeSpace (h : buffer.Holds rows) {start stop : Nat}
    (hremove : buffer.removeSpace start stop = some buffer') :
    buffer'.Holds (rows.take start ++ rows.drop stop) := by
  simp only [OptBuffer.removeSpace, Option.bind_eq_bind, Option.bind_eq_some_iff, Option.pure_def,
    Option.some.injEq] at hremove
  obtain ⟨arrayStart, hstart, arrayStop, hstop, bitmap, hbitmap, array, harray, rfl⟩ := hremove
  obtain ⟨hle, hmarks⟩ := h.bitmap.remove hbitmap
  obtain ⟨-, rfl⟩ := h.bitmap.arrayIdx_eq_some hstart
  obtain ⟨-, rfl⟩ := h.bitmap.arrayIdx_eq_some hstop
  have htake : (rows.take stop).reduceOption = (rows.take start).reduceOption
      ++ ((rows.take stop).drop start).reduceOption := by
    rw [← List.reduceOption_append]
    congr 1
    nth_rewrite 1 [← List.take_append_drop start (rows.take stop)]
    rw [List.take_take, Nat.min_eq_left hle]
  rw [h.array_eq stop, htake, List.length_append, ValueArray.removeSpace_append] at harray
  cases harray
  refine ⟨hmarks, ?_⟩
  rw [List.reduceOption_append]

theorem Holds.setValues (h : buffer.Holds rows) {idx : Nat} {value : Option V}
    (hset : buffer.setValues idx value = some buffer') : buffer'.Holds (rows.set idx value) := by
  simp only [OptBuffer.setValues, Option.bind_eq_bind, Option.bind_eq_some_iff] at hset
  obtain ⟨arrayIdx, hidx, present, hpresent, hset⟩ := hset
  obtain ⟨-, rfl⟩ := h.bitmap.arrayIdx_eq_some hidx
  rw [h.bitmap.get_eq, Option.map_eq_some_iff] at hpresent
  obtain ⟨old, hold, rfl⟩ := hpresent
  have hlt := (List.getElem?_eq_some_iff.mp hold).1
  have harrayAt := h.array_at hold
  have hrows : (rows.set idx value).reduceOption = (rows.take idx).reduceOption ++ value.toList
      ++ (rows.drop (idx + 1)).reduceOption := by
    rw [List.set_eq_take_append_cons_drop, if_pos hlt, List.reduceOption_append, List.append_assoc]
    cases value with
    | none => rfl
    | some v => rfl
  have hmarks : ∀ bitmap', buffer.bitmap.set idx value.isSome = some bitmap' →
      Marks bitmap'.reindex (rows.set idx value) := fun _ => h.bitmap.set
  cases value with
  | none =>
      cases old with
      | none =>
          cases hset
          exact ⟨h.bitmap.replace hold rfl, harrayAt.trans hrows.symm⟩
      | some w =>
          simp only [Option.isSome_some, Option.bind_eq_some_iff, Option.pure_def,
            Option.some.injEq] at hset
          obtain ⟨array, harray, bitmap, hbitmap, rfl⟩ := hset
          rw [harrayAt] at harray
          cases (ValueArray.removeSpace_append _ [w] _).symm.trans harray
          refine ⟨hmarks bitmap hbitmap, ?_⟩
          rw [hrows]
          simp
  | some v =>
      cases old with
      | none =>
          simp only [Option.isSome_none, Option.bind_eq_some_iff, Option.pure_def,
            Option.some.injEq] at hset
          obtain ⟨array, harray, bitmap, hbitmap, rfl⟩ := hset
          rw [harrayAt, Option.toList_none, List.append_nil,
            ValueArray.insertEntries_append] at harray
          cases harray
          exact ⟨hmarks bitmap hbitmap, hrows.symm⟩
      | some w =>
          simp only [Option.isSome_some, Option.bind_eq_some_iff, Option.pure_def,
            Option.some.injEq, ValueArray.setValues, Option.bind_eq_bind] at hset
          obtain ⟨array, ⟨removed, hremoved, harray⟩, rfl⟩ := hset
          rw [harrayAt] at hremoved
          cases (ValueArray.removeSpace_append _ [w] _).symm.trans hremoved
          cases (ValueArray.insertEntries_append _ _ _).symm.trans harray
          exact ⟨h.bitmap.replace hold rfl, hrows.symm⟩

theorem Holds.splitTo (h : buffer.Holds rows) (h' : other.Holds rows') {idx : Nat}
    (hsplit : buffer.splitTo other idx = some (buffer', other')) :
    buffer'.Holds (rows.take idx) ∧ other'.Holds (rows.drop idx ++ rows') := by
  simp only [OptBuffer.splitTo, FSSeq.splitTo, ValueArray.splitTo, Option.bind_eq_bind,
    Option.bind_eq_some_iff, Option.pure_def, Option.some.injEq, Option.ite_none_right_eq_some,
    Prod.mk.injEq, Prod.exists] at hsplit
  obtain ⟨arrayIdx, hidx, _, _, ⟨bitmap, hbitmap, rfl, rfl⟩, _, _, ⟨⟨hempty, -⟩, rfl, rfl⟩, rfl, rfl⟩ :=
    hsplit
  obtain ⟨-, rfl⟩ := h.bitmap.arrayIdx_eq_some hidx
  obtain ⟨-, hmarks⟩ := h.bitmap.remove hbitmap
  rw [h.bitmap.size_eq, List.drop_length, List.append_nil] at hmarks
  have hrest : rows'.reduceOption = [] := by
    rw [← h'.array]
    exact List.length_eq_zero_iff.mp hempty
  refine ⟨⟨hmarks.reindex, ?_⟩, ⟨⟨?_, FSSeq.fresh_reindex⟩, ?_⟩⟩
  · rw [h.array_eq idx, List.take_left]
  · simp [h.bitmap.symbols, h'.bitmap.symbols]
  · rw [h.array_eq idx, List.drop_left, List.reduceOption_append, hrest, List.append_nil]

theorem Holds.mergeWith (h : buffer.Holds rows) (h' : other.Holds rows') :
    (buffer.mergeWith other).Holds (rows' ++ rows) := by
  refine ⟨⟨?_, FSSeq.fresh_reindex⟩, ?_⟩
  · simp [OptBuffer.mergeWith, FSSeq.mergeWith, h.bitmap.symbols, h'.bitmap.symbols]
  · simp [OptBuffer.mergeWith, ValueArray.mergeWith, h.array, h'.array, List.reduceOption_append]

def EntriesOk (bitmap : FSSeq Bool) (rowAt size : Nat) (elements : Nat → Option V) : Prop :=
  (∀ pos < size, elements pos = none) ∨ ∀ row < rowAt, bitmap.get row = some true

theorem Marks.insertEntries (h : Marks bitmap rows) {rowAt size : Nat} {elements : Nat → Option V}
    (hindex : bitmap.index = none ∨ size = 0)
    (hinsert : bitmap.insertEntries rowAt size (fun pos => (elements pos).isSome) = some bitmap') :
    rowAt ≤ rows.length ∧
      Marks bitmap' (rows.take rowAt ++ (List.range size).map elements ++ rows.drop rowAt) := by
  simp only [FSSeq.insertEntries, FSSeq.insertData, Option.ite_none_right_eq_some,
    Option.some.injEq] at hinsert
  obtain ⟨hle, rfl⟩ := hinsert
  refine ⟨by rwa [h.size_eq] at hle, ?_, ?_⟩
  · simp [h.symbols, Function.comp_def]
  · obtain hindex | rfl := hindex
    · exact FSSeq.fresh_of_index hindex
    · have hfresh := h.fresh
      simpa [FSSeq.Fresh] using hfresh

theorem count_take_true {rowAt : Nat} (hle : rowAt ≤ rows.length)
    (h : ∀ row < rowAt, ∃ value, rows[row]? = some (some value)) :
    ((rows.take rowAt).map Option.isSome).count true = rowAt := by
  have hlength : ((rows.take rowAt).map Option.isSome).length = rowAt := by
    simp [hle]
  nth_rewrite 2 [← hlength]
  rw [List.count_eq_length]
  intro bit hbit
  obtain ⟨row, hrow, rfl⟩ := List.mem_map.mp hbit
  obtain ⟨i, hi, rfl⟩ := List.getElem_of_mem hrow
  rw [List.length_take, Nat.min_eq_left hle] at hi
  obtain ⟨value, hvalue⟩ := h i hi
  rw [List.getElem_take, (List.getElem?_eq_some_iff.mp hvalue).2]
  rfl

/-- Behind present rows only, the row of value `rowAt + arrIdx` is the row of value `arrIdx` among
the new ones. -/
theorem Marks.entryAt_eq {rowAt size : Nat} {elements : Nat → Option V}
    (h : Marks bitmap (rows.take rowAt ++ (List.range size).map elements ++ rows.drop rowAt))
    (hle : rowAt ≤ rows.length) (hpresent : ∀ row < rowAt, ∃ value, rows[row]? = some (some value))
    {arrIdx : Nat} {value : V}
    (hvalue : ((List.range size).map elements).reduceOption[arrIdx]? = some value) :
    entryAt bitmap rowAt elements arrIdx = some value := by
  obtain ⟨i, hselect, hi⟩ := select_isSome hvalue
  have hlt : arrIdx < (((List.range size).map elements).map Option.isSome).count true := by
    rw [count_isSome]
    exact (List.getElem?_eq_some_iff.mp hvalue).1
  have hbitmapIdx : bitmapIdx bitmap (rowAt + arrIdx) = rowAt + i := by
    rw [h.bitmapIdx_eq, List.append_assoc, List.map_append, select_append,
      count_take_true hle hpresent, if_neg (by omega), Nat.add_sub_cancel_left, List.map_append,
      select_append, if_pos hlt, hselect]
    simp [hle, Nat.add_comm]
  have helement : elements i = some value := by
    obtain ⟨hsize, heq⟩ := List.getElem?_eq_some_iff.mp hi
    simpa using heq
  rw [entryAt, hbitmapIdx, if_pos (Nat.le_add_right _ _), Nat.add_sub_cancel_left, helement]

theorem Holds.insertEntries (h : buffer.Holds rows) {rowAt size : Nat} {elements : Nat → Option V}
    (hindex : buffer.bitmap.index = none ∨ size = 0)
    (hok : EntriesOk buffer.bitmap rowAt size elements)
    (hinsert : buffer.insertEntries rowAt size elements = some buffer') :
    buffer'.Holds (rows.take rowAt ++ (List.range size).map elements ++ rows.drop rowAt) := by
  simp only [OptBuffer.insertEntries, Option.bind_eq_bind, Option.bind_eq_some_iff,
    Option.pure_def, Option.some.injEq] at hinsert
  obtain ⟨bitmap, hbitmap, number, hnumber, arrayRowAt, hrow, values, hvalues, array, harray, rfl⟩ :=
    hinsert
  obtain ⟨hle, hmarks⟩ := h.bitmap.insertEntries hindex hbitmap
  obtain ⟨-, rfl⟩ := hmarks.arrayIdx_eq_some hrow
  have hstop : rowAt + size ≤ bitmap.size := by
    rw [hmarks.size_eq]
    simp only [List.length_append, List.length_take, List.length_map, List.length_range,
      List.length_drop]
    omega
  have hnew : (bitmap.symbols.drop rowAt).take size
      = ((List.range size).map elements).map Option.isSome := by
    have hlength : rowAt = ((rows.take rowAt).map Option.isSome).length := by simp [hle]
    rw [hmarks.symbols, List.append_assoc, List.map_append]
    nth_rewrite 1 [hlength]
    rw [List.drop_left, List.map_append, List.take_left']
    simp
  rw [hmarks.fresh.rankRange_eq (Nat.le_add_right _ _) hstop, Nat.add_sub_cancel_left, hnew,
    count_isSome] at hnumber
  cases hnumber
  have hentries : values = ((List.range size).map elements).reduceOption := by
    obtain habsent | hpresent := hok
    · have hnil : ((List.range size).map elements).reduceOption = [] := by
        rw [List.reduceOption, List.filterMap_eq_nil_iff]
        intro row hrow
        obtain ⟨pos, hpos, rfl⟩ := List.mem_map.mp hrow
        exact habsent pos (List.mem_range.mp hpos)
      rw [hnil] at hvalues ⊢
      exact (Option.some.inj hvalues).symm
    · have hrows : ∀ row < rowAt, ∃ value, rows[row]? = some (some value) := by
        intro row hrow
        have hget := hpresent row hrow
        rw [h.bitmap.get_eq, Option.map_eq_some_iff] at hget
        obtain ⟨value, hvalue, hsome⟩ := hget
        obtain ⟨value, rfl⟩ := Option.isSome_iff_exists.mp hsome
        exact ⟨value, hvalue⟩
      rw [mapM_range_eq fun k value hvalue => hmarks.entryAt_eq hle hrows hvalue] at hvalues
      exact (Option.some.inj hvalues).symm
  subst hentries
  rw [take_insert hle, h.array_eq rowAt, ValueArray.insertEntries_append] at harray
  cases harray
  refine ⟨hmarks, ?_⟩
  rw [List.reduceOption_append, List.reduceOption_append]

theorem Marks.index_of_remove (h : Marks bitmap rows) {start stop : Nat}
    (hremove : bitmap.remove start stop = some bitmap')
    (hsize : rows.length ≤ FSSeq.valuesPerBranch + (stop - start)) : bitmap'.index = none := by
  simp only [FSSeq.remove, Option.ite_none_right_eq_some, Option.some.injEq] at hremove
  obtain ⟨⟨hle, hstop⟩, rfl⟩ := hremove
  rw [h.size_eq] at hstop
  have hshort : ¬FSSeq.valuesPerBranch
      < (bitmap.symbols.take start ++ bitmap.symbols.drop stop).length := by
    rw [List.length_append, List.length_take, List.length_drop, h.symbols, List.length_map]
    omega
  rw [FSSeq.reindex]
  exact congrArg FSSeq.index (if_neg hshort)

theorem Holds.updateEntries (h : buffer.Holds rows) {rowAt size : Nat} {elements : Nat → Option V}
    (hindex : buffer.size ≤ FSSeq.valuesPerBranch + size ∨ size = 0)
    (hok : EntriesOk buffer.bitmap rowAt size elements)
    (hupdate : buffer.updateEntries rowAt size elements = some buffer') :
    buffer'.Holds (rows.take rowAt ++ (List.range size).map elements
      ++ rows.drop (rowAt + size)) := by
  simp only [OptBuffer.updateEntries, OptBuffer.removeEntries, Option.bind_eq_bind,
    Option.bind_eq_some_iff] at hupdate
  obtain ⟨removed, hremove, hinsert⟩ := hupdate
  have hremoved := h.removeSpace hremove
  simp only [OptBuffer.removeSpace, Option.bind_eq_bind, Option.bind_eq_some_iff, Option.pure_def,
    Option.some.injEq] at hremove
  obtain ⟨_, hstart, _, -, bitmap, hbitmap, _, -, rfl⟩ := hremove
  obtain ⟨hle, -⟩ := h.bitmap.arrayIdx_eq_some hstart
  have hlength : (rows.take rowAt).length = rowAt := by
    rw [List.length_take, Nat.min_eq_left hle]
  have hindex' : bitmap.index = none ∨ size = 0 := by
    refine hindex.imp_left fun hsize => ?_
    apply h.bitmap.index_of_remove hbitmap
    rwa [Nat.add_sub_cancel_left, ← h.bitmap.size_eq]
  have hok' : EntriesOk bitmap rowAt size elements := by
    refine hok.imp_right fun hpresent row hrow => ?_
    have hget := hpresent row hrow
    rw [h.bitmap.get_eq] at hget
    rw [hremoved.bitmap.get_eq, List.getElem?_append_left (by rwa [hlength]),
      List.getElem?_take_of_lt hrow, hget]
  have hholds := hremoved.insertEntries hindex' hok' hinsert
  rwa [List.take_left' hlength, List.drop_left' hlength] at hholds

section Runs

variable {ι : Type} [DecidableEq ι]

def edit (lists : ι → List (Option V)) : Op ι V → ι → List (Option V)
  | .insert b idx value =>
    Function.update lists b ((lists b).take idx ++ [value] ++ (lists b).drop idx)
  | .insertEntries b rowAt size elements =>
    Function.update lists b
      ((lists b).take rowAt ++ (List.range size).map elements ++ (lists b).drop rowAt)
  | .setValues b idx value => Function.update lists b ((lists b).set idx value)
  | .updateEntries b rowAt size elements =>
    Function.update lists b
      ((lists b).take rowAt ++ (List.range size).map elements ++ (lists b).drop (rowAt + size))
  | .removeSpace b start stop =>
    Function.update lists b ((lists b).take start ++ (lists b).drop stop)
  | .splitTo b other idx =>
    Function.update (Function.update lists b ((lists b).take idx)) other
      ((lists b).drop idx ++ lists other)
  | .mergeWith b other => Function.update lists other (lists other ++ lists b)

/-- An operation that inserts many rows finds a bitmap without an index, and has absent rows only or
present rows only before it. -/
def StepOk (buffers : ι → OptBuffer V) : Op ι V → Prop
  | .insertEntries b rowAt size elements =>
    ((buffers b).bitmap.index = none ∨ size = 0) ∧
      EntriesOk (buffers b).bitmap rowAt size elements
  | .updateEntries b rowAt size elements =>
    ((buffers b).size ≤ FSSeq.valuesPerBranch + size ∨ size = 0) ∧
      EntriesOk (buffers b).bitmap rowAt size elements
  | _ => True

instance (buffers : ι → OptBuffer V) (op : Op ι V) : Decidable (StepOk buffers op) := by
  cases op <;> unfold StepOk EntriesOk <;> infer_instance

theorem holds_update {buffers : ι → OptBuffer V} {lists : ι → List (Option V)}
    (h : ∀ b, (buffers b).Holds (lists b)) {b : ι} (hb : buffer.Holds rows) (c : ι) :
    (Function.update buffers b buffer c).Holds (Function.update lists b rows c) := by
  by_cases hc : c = b
  · subst hc
    rwa [Function.update_self, Function.update_self]
  · rw [Function.update_of_ne hc, Function.update_of_ne hc]
    exact h c

theorem holds_step {buffers buffers' : ι → OptBuffer V} {lists : ι → List (Option V)}
    {op : Op ι V} (h : ∀ b, (buffers b).Holds (lists b)) (hok : StepOk buffers op)
    (hstep : step buffers op = some buffers') : ∀ b, (buffers' b).Holds (edit lists op b) := by
  cases op with
  | insert b idx value =>
      simp only [step, Option.bind_eq_bind, Option.bind_eq_some_iff, Option.pure_def,
        Option.some.injEq] at hstep
      obtain ⟨buffer, hinsert, rfl⟩ := hstep
      exact holds_update h ((h b).insert hinsert)
  | insertEntries b rowAt size elements =>
      simp only [step, Option.bind_eq_bind, Option.bind_eq_some_iff, Option.pure_def,
        Option.some.injEq] at hstep
      obtain ⟨buffer, hinsert, rfl⟩ := hstep
      exact holds_update h ((h b).insertEntries hok.1 hok.2 hinsert)
  | setValues b idx value =>
      simp only [step, Option.bind_eq_bind, Option.bind_eq_some_iff, Option.pure_def,
        Option.some.injEq] at hstep
      obtain ⟨buffer, hset, rfl⟩ := hstep
      exact holds_update h ((h b).setValues hset)
  | updateEntries b rowAt size elements =>
      simp only [step, Option.bind_eq_bind, Option.bind_eq_some_iff, Option.pure_def,
        Option.some.injEq] at hstep
      obtain ⟨buffer, hupdate, rfl⟩ := hstep
      exact holds_update h ((h b).updateEntries hok.1 hok.2 hupdate)
  | removeSpace b start stop =>
      simp only [step, Option.bind_eq_bind, Option.bind_eq_some_iff, Option.pure_def,
        Option.some.injEq] at hstep
      obtain ⟨buffer, hremove, rfl⟩ := hstep
      exact holds_update h ((h b).removeSpace hremove)
  | splitTo b other idx =>
      simp only [step, Option.bind_eq_bind, Option.bind_eq_some_iff, Option.pure_def,
        Option.some.injEq, Option.ite_none_left_eq_some, Prod.exists] at hstep
      obtain ⟨-, buffer, moved, hsplit, rfl⟩ := hstep
      obtain ⟨hbuffer, hmoved⟩ := (h b).splitTo (h other) hsplit
      exact holds_update (holds_update h hbuffer) hmoved
  | mergeWith b other =>
      simp only [step, Option.ite_none_left_eq_some, Option.some.injEq] at hstep
      obtain ⟨-, rfl⟩ := hstep
      exact holds_update h ((h b).mergeWith (h other))

/-- After a run within the condition each buffer has the rows that the same operations make of its
list. -/
theorem holds_run {ops : List (Op ι V)} {buffers buffers' : ι → OptBuffer V}
    {lists : ι → List (Option V)} (h : ∀ b, (buffers b).Holds (lists b))
    (hok : EveryStep step StepOk buffers ops) (hrun : ops.foldlM step buffers = some buffers') :
    ∀ b, (buffers' b).Holds (ops.foldl edit lists b) := by
  induction ops generalizing buffers lists with
  | nil =>
      cases hrun
      exact h
  | cons op ops ih =>
      simp only [List.foldlM_cons, Option.bind_eq_bind, Option.bind_eq_some_iff] at hrun
      obtain ⟨next, hstep, hrun⟩ := hrun
      exact ih (holds_step h hok.1 hstep) (hok.2 next hstep) hrun

end Runs

structure Shows [LinearOrder V] (buffer : OptBuffer V) (rows : List (Option V)) : Prop where
  size : buffer.size = rows.length
  access : ∀ row, buffer.access row = rows[row]?
  ones : buffer.bitmap.symbols.count true = buffer.array.length
  findGE : rows.reduceOption.Pairwise (· ≤ ·) →
    ∀ key, buffer.findGEForward key = rows.findIdx (Option.any (key ≤ ·))
  findGT : rows.reduceOption.Pairwise (· ≤ ·) →
    ∀ key, buffer.findGTForward key = rows.findIdx (Option.any (key < ·))

theorem Holds.shows [LinearOrder V] (h : buffer.Holds rows) : buffer.Shows rows where
  size := h.bitmap.size_eq
  access := h.access_eq
  ones := h.ones
  findGE := by
    intro hsorted key
    rw [findGEForward, h.bitmap.bitmapIdx_eq, h.array, ValueArray.findGEForward_eq hsorted,
      select_findIdx]
  findGT := by
    intro hsorted key
    rw [findGTForward, h.bitmap.bitmapIdx_eq, h.array, ValueArray.findGTForward_eq hsorted,
      select_findIdx]

/-- In every run of successful operations from empty buffers whose insertions of many rows find a
bitmap without an index, and only present rows before a new value, each buffer is the list of rows
that the list operations give. -/
theorem run_shows [LinearOrder V] {ι : Type} [DecidableEq ι] {ops : List (Op ι V)}
    {buffers : ι → OptBuffer V} (hok : EveryStep step StepOk (fun _ => empty) ops)
    (hrun : ops.foldlM step (fun _ => empty) = some buffers) (b : ι) :
    (buffers b).Shows (ops.foldl edit (fun _ => []) b) :=
  (holds_run (fun _ => holds_empty) hok hrun b).shows

/-- Rows that come together or one by one, are set and unset, move to another buffer, are replaced
there, come back behind others, and go. -/
def shortRun : List (Op Bool Nat) :=
  [.insertEntries true 0 3 fun pos => [some 7, none, some 9].getD pos none,
    .insert true 1 (some 8), .setValues true 2 (some 5), .setValues true 0 none,
    .splitTo true false 2, .updateEntries false 0 1 fun _ => some 6, .mergeWith true false,
    .removeSpace false 2 3]

theorem run_shows_shortRun : ∃ buffers, shortRun.foldlM step (fun _ => empty) = some buffers ∧
    (buffers true).Shows [none, some 8] ∧ (buffers false).Shows [some 6, some 9, some 8] := by
  obtain ⟨buffers, hrun⟩ := Option.isSome_iff_exists.mp
    (show (shortRun.foldlM step fun _ => (empty : OptBuffer Nat)).isSome = true by decide +kernel)
  have hok : EveryStep step StepOk (fun _ => empty) shortRun := by decide +kernel
  exact ⟨buffers, hrun, run_shows hok hrun true, run_shows hok hrun false⟩

def behindAbsent : List (Op Unit Nat) :=
  [.insert () 0 none, .insertEntries () 1 1 fun pos => some pos]

/-- The value is read from the position behind the one it was asked for. -/
theorem not_shows_behindAbsent :
    ¬∀ buffers, behindAbsent.foldlM step (fun _ => empty) = some buffers →
      (buffers ()).Shows (behindAbsent.foldl edit (fun _ => []) ()) := by
  intro hshows
  obtain ⟨buffers, hrun⟩ := Option.isSome_iff_exists.mp
    (show (behindAbsent.foldlM step fun _ => (empty : OptBuffer Nat)).isSome = true by decide)
  have haccess := (hshows buffers hrun).access 1
  have hread : (behindAbsent.foldlM step fun _ => (empty : OptBuffer Nat)).map
      (fun buffers => (buffers ()).access 1) = some (some (some 1)) := by decide
  rw [hrun, Option.map_some, haccess] at hread
  exact absurd hread (by decide)

end OptBuffer

end Memoria

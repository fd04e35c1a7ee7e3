import Memoria.Proof.IndexLevels

namespace Memoria.VleTree

open Lib

/-! Streams of codes and their indexes. -/

variable {Data Value Index : Type}

namespace Codec

variable (codec : Codec Data Value)

def units (values : List Value) : List Data := values.flatMap codec.encode

def starts (pos : Nat) (values : List Value) : List (Nat × Value) :=
  Lib.starts (fun value => (codec.encode value).length) pos values

@[simp]
theorem units_nil : codec.units [] = [] := rfl

@[simp]
theorem units_cons (value : Value) (values : List Value) :
    codec.units (value :: values) = codec.encode value ++ codec.units values := rfl

@[simp]
theorem units_append (values values' : List Value) :
    codec.units (values ++ values') = codec.units values ++ codec.units values' :=
  List.flatMap_append

theorem length_units (values : List Value) :
    (codec.units values).length = Stream.totalLength codec values := by
  rw [units, List.length_flatMap]
  rfl

theorem length_encode_pos (value : Value) : 0 < (codec.encode value).length :=
  List.length_pos_iff.mpr (codec.encode_ne_nil value)

theorem length_le_length_units (values : List Value) :
    values.length ≤ (codec.units values).length := by
  induction values with
  | nil => exact Nat.le_refl _
  | cons value values ih =>
      have := codec.length_encode_pos value
      rw [units_cons, List.length_append, List.length_cons]
      omega

@[simp]
theorem length_starts (pos : Nat) (values : List Value) :
    (codec.starts pos values).length = values.length := Lib.length_starts _ pos values

theorem getElem?_starts (pos : Nat) (values : List Value) (k : Nat) :
    (codec.starts pos values)[k]?
      = values[k]?.map fun value => (pos + (codec.units (values.take k)).length, value) := by
  simp only [length_units]
  exact Lib.getElem?_starts _ pos values k

theorem le_of_mem_starts {pos : Nat} {values : List Value} {e : Nat × Value}
    (he : e ∈ codec.starts pos values) : pos ≤ e.1 := Lib.le_of_mem_starts he

theorem lt_of_mem_starts {pos : Nat} {values : List Value} {e : Nat × Value}
    (he : e ∈ codec.starts pos values) : e.1 < pos + (codec.units values).length := by
  rw [length_units]
  exact Lib.lt_of_mem_starts codec.length_encode_pos he

theorem pairwise_starts (pos : Nat) (values : List Value) :
    (codec.starts pos values).Pairwise fun a b => a.1 < b.1 :=
  Lib.pairwise_starts codec.length_encode_pos pos values

end Codec

variable (params : Params Data Value Index)

theorem Params.valuesPerBranch_pos (value : Value) : 0 < params.valuesPerBranch :=
  Nat.lt_of_le_of_lt (Nat.zero_le _) (params.code_lt value)

def firstOffset (window : Nat) (entries : List (Nat × Value)) (i : Nat) : Nat :=
  ((entries.find? fun e => e.1 / window = i).map fun e => e.1 - i * window).getD 0

namespace Stream

variable {params} {stream : Stream Data Index} {values : List Value}

structure Carries (stream : Stream Data Index) (units : List Data) : Prop where
  data : ∃ rest, stream.values = units ++ rest
  dataSize : stream.dataSize = units.length

abbrev Holds (params : Params Data Value Index) (stream : Stream Data Index)
    (values : List Value) : Prop := stream.Carries (params.codec.units values)

structure Indexed [AddCommMonoid Index] (params : Params Data Value Index)
    (stream : Stream Data Index) (values : List Value) : Prop where
  offsets : stream.offsets = (List.range (divUp stream.dataSize params.valuesPerBranch)).map
    (firstOffset params.valuesPerBranch (params.codec.starts 0 values))
  sums : IsLevels params.index (params.codec.starts 0 values) params.valuesPerBranch
    params.branchingFactor stream.dataSize stream.valueIndex
  counts : IsLevels (fun _ => 1) (params.codec.starts 0 values) params.valuesPerBranch
    params.branchingFactor stream.dataSize stream.sizeIndex
  noIndex : stream.dataSize ≤ params.valuesPerBranch →
    stream.valueIndex = [] ∧ stream.sizeIndex = []
  hasIndex : params.valuesPerBranch < stream.dataSize →
    2 ≤ stream.valueIndex.length ∧ stream.sizeIndex.length = stream.valueIndex.length

theorem skipCodes_eq (codec : Codec Data Value) (values : List Value) {data : List Data}
    {dataSize : Nat} :
    ∀ (done rest : List Data) {count fuel : Nat}, count ≤ values.length →
      count ≤ fuel → data = done ++ (codec.units values ++ rest) →
      dataSize = done.length + (codec.units values).length →
      skipCodes codec data dataSize fuel count done.length
        = done.length + (codec.units (values.take count)).length := by
  induction values with
  | nil =>
      intro done rest count fuel hcount _ _ _
      cases Nat.le_zero.mp hcount
      cases fuel <;> rfl
  | cons value values ih =>
      intro done rest count fuel hcount hfuel hdata hsize
      cases count with
      | zero => cases fuel <;> rfl
      | succ count =>
          obtain ⟨fuel, rfl⟩ : ∃ f, fuel = f + 1 := ⟨fuel - 1, by omega⟩
          have hpos := codec.length_encode_pos value
          rw [Codec.units_cons, List.append_assoc] at hdata
          rw [Codec.units_cons, List.length_append] at hsize
          have hlength : codec.length (data.drop done.length) = (codec.encode value).length := by
            rw [hdata, List.drop_left, codec.length_encode]
          have hrest := ih (done ++ codec.encode value) rest
            (Nat.le_of_succ_le_succ hcount) (Nat.le_of_succ_le_succ hfuel)
            (by rw [hdata]; simp only [List.append_assoc])
            (by rw [hsize, List.length_append]; omega)
          rw [List.length_append] at hrest
          rw [skipCodes, if_pos (by omega), hlength, hrest, List.take_succ_cons, Codec.units_cons,
            List.length_append]
          omega

theorem seek_none {idx : Nat} {counts : List Nat} {sum : Nat} (h : sum + counts.sum ≤ idx)
    (c : Nat) : seek idx counts c sum = (none, sum + counts.sum) := by
  induction counts generalizing c sum with
  | nil => rfl
  | cons count counts ih =>
      rw [List.sum_cons, ← Nat.add_assoc] at h ⊢
      rw [seek, if_neg (by omega), ih h]

/-- The first entry that brings the sum over `idx`. -/
theorem seek_some {idx : Nat} {counts : List Nat} {sum : Nat} (hle : sum ≤ idx)
    (hlt : idx < sum + counts.sum) (c : Nat) :
    ∃ k, k < counts.length ∧ seek idx counts c sum = (some (c + k), sum + (counts.take k).sum) ∧
      sum + (counts.take k).sum ≤ idx ∧ idx < sum + (counts.take (k + 1)).sum := by
  induction counts generalizing c sum with
  | nil =>
      rw [List.sum_nil] at hlt
      omega
  | cons count counts ih =>
      by_cases hfound : idx < sum + count
      · refine ⟨0, Nat.succ_pos _, ?_, hle, ?_⟩
        · rw [seek, if_pos hfound]
          rfl
        · simpa using hfound
      · rw [List.sum_cons, ← Nat.add_assoc] at hlt
        obtain ⟨k, hk, hseek, hbefore, hbehind⟩ := ih (Nat.le_of_not_lt hfound) hlt (c + 1)
        refine ⟨k + 1, Nat.succ_lt_succ hk, ?_, ?_, ?_⟩
        · rw [seek, if_neg hfound, hseek, List.take_succ_cons, List.sum_cons, Nat.add_assoc c,
            Nat.add_comm 1, Nat.add_assoc]
        · rw [List.take_succ_cons, List.sum_cons, ← Nat.add_assoc]
          exact hbefore
        · rw [List.take_succ_cons, List.sum_cons, ← Nat.add_assoc]
          exact hbehind

section Levels

variable {entries : List (Nat × Value)} {d b total : Nat}

/-- A search in the levels ends at the window of the entry, with the number of those before it. -/
theorem locateIndex_some (hd : 0 < d) (hb : 0 < b) (hall : ∀ e ∈ entries, e.1 < total) {idx : Nat}
    (hidx : idx < entries.length) :
    ∀ {levels : List (List Nat)} {branchStart : Nat}, levels ≠ [] →
      IsLevels (fun _ => 1) entries d b total levels →
      below entries (d * b ^ (levels.length - 1) * branchStart) ≤ idx →
      ∃ window, locateIndex b idx levels branchStart
          (below entries (d * b ^ (levels.length - 1) * branchStart))
            = (some window, below entries (d * window)) ∧
        below entries (d * window) ≤ idx ∧ idx < below entries (d * (window + 1)) := by
  intro levels
  induction levels with
  | nil => exact fun hne => absurd rfl hne
  | cons level levels ih =>
      intro branchStart _ hlevels hbefore
      obtain ⟨hlevel, hlevels⟩ := hlevels
      rw [List.length_cons, Nat.add_sub_cancel] at hbefore ⊢
      have hwidth : 0 < d * b ^ levels.length := Nat.mul_pos hd (Nat.pow_pos hb)
      have hin : ∀ e ∈ entries, e.1 < d * b ^ levels.length
          * divUp total (d * b ^ levels.length) := fun e he => lt_mul_divUp hwidth (hall e he)
      have hlength : level.length = divUp total (d * b ^ levels.length) := by
        rw [hlevel, length_bucketLevel]
      have htake : ∀ i ≤ level.length, (level.take i).sum
          = below entries (d * b ^ levels.length * i) := by
        intro i hi
        rw [hlength] at hi
        rw [hlevel]
        exact sum_take_counts hwidth hi
      have hsum : level.sum = entries.length := by
        rw [hlevel]
        exact sum_countLevel hwidth hin
      -- the sums in front of the place where the search starts
      have hstart : branchStart ≤ level.length := by
        by_contra hgt
        have hbelow : below entries (d * b ^ levels.length * branchStart) = entries.length := by
          refine below_of_forall fun e he => (hin e he).trans_le ?_
          rw [hlength] at hgt
          exact Nat.mul_le_mul_left _ (Nat.le_of_not_le hgt)
        omega
      have hdrop : ∀ k, branchStart + k ≤ level.length →
          below entries (d * b ^ levels.length * branchStart) + ((level.drop branchStart).take k).sum
            = below entries (d * b ^ levels.length * (branchStart + k)) := by
        intro k hk
        rw [← htake _ hstart, ← htake _ hk, List.take_add, List.sum_append]
      have hrest : idx < below entries (d * b ^ levels.length * branchStart)
          + (level.drop branchStart).sum := by
        have := hdrop (level.length - branchStart) (by omega)
        rw [List.take_of_length_le (by simp), Nat.add_sub_cancel' hstart,
          ← htake _ (Nat.le_refl _), List.take_length, hsum] at this
        omega
      obtain ⟨k, hk, hseek, hle, hlt⟩ := seek_some hbefore hrest branchStart
      rw [List.length_drop] at hk
      rw [hdrop k (by omega)] at hseek hle
      rw [hdrop (k + 1) (by omega)] at hlt
      rw [locateIndex, hseek]
      cases levels with
      | nil =>
          simp only [List.length_nil, Nat.pow_zero, Nat.mul_one] at hle hlt ⊢
          exact ⟨branchStart + k, rfl, hle, hlt⟩
      | cons level' levels =>
          have hnext : d * b ^ (level' :: levels).length * (branchStart + k)
              = d * b ^ ((level' :: levels).length - 1) * ((branchStart + k) * b) := by
            rw [List.length_cons, Nat.add_sub_cancel, Nat.pow_succ]
            simp only [Nat.mul_assoc, Nat.mul_comm, Nat.mul_left_comm]
          rw [hnext] at hle ⊢
          simp only [if_neg (List.cons_ne_nil level' levels)]
          exact ih (List.cons_ne_nil _ _) hlevels hle

theorem locateIndex_none (hd : 0 < d) (hb : 0 < b) (hall : ∀ e ∈ entries, e.1 < total)
    {levels : List (List Nat)} (hlevels : IsLevels (fun _ => 1) entries d b total levels)
    {idx : Nat} (hidx : entries.length ≤ idx) : (locateIndex b idx levels 0 0).1 = none := by
  cases levels with
  | nil => rfl
  | cons level levels =>
      have hwidth : 0 < d * b ^ levels.length := Nat.mul_pos hd (Nat.pow_pos hb)
      have hsum : level.sum = entries.length := by
        rw [hlevels.1]
        exact sum_countLevel hwidth fun e he => lt_mul_divUp hwidth (hall e he)
      rw [locateIndex, List.drop_zero, seek_none (by omega)]

end Levels

theorem firstOffset_zero {window : Nat} (codec : Codec Data Value) (values : List Value) :
    firstOffset window (codec.starts 0 values) 0 = 0 := by
  cases values with
  | nil => rfl
  | cons value values =>
      have hfind : (codec.starts 0 (value :: values)).find? (fun e => e.1 / window = 0)
          = some (0, value) := List.find?_cons_of_pos (by simp)
      rw [firstOffset, hfind]
      simp

/-- Where the first code of a window starts, if the window has the code number `idx`. -/
theorem firstOffset_eq (codec : Codec Data Value) {values : List Value} {window w idx : Nat}
    (hpos : 0 < window) (hidx : idx < values.length)
    (hle : below (codec.starts 0 values) (window * w) ≤ idx)
    (hlt : idx < below (codec.starts 0 values) (window * (w + 1))) :
    w * window < (codec.units values).length ∧
      w * window + firstOffset window (codec.starts 0 values) w
        = (codec.units (values.take (below (codec.starts 0 values) (window * w)))).length := by
  have hsorted := codec.pairwise_starts 0 values
  have hk := Nat.lt_of_le_of_lt hle hidx
  have hentry := codec.getElem?_starts 0 values (below (codec.starts 0 values) (window * w))
  rw [List.getElem?_eq_getElem hk, Option.map_some] at hentry
  have hin := (lt_below_iff hsorted hentry).mp (Nat.lt_of_le_of_lt hle hlt)
  have hnot := mt (lt_below_iff hsorted hentry).mpr (Nat.lt_irrefl _)
  have hend := codec.lt_of_mem_starts (List.mem_of_getElem? hentry)
  have hfind := find_bucket hsorted hpos hentry hin
  rw [Nat.mul_comm w window]
  refine ⟨by omega, ?_⟩
  rw [firstOffset, hfind, Option.map_some, Option.getD_some, Nat.mul_comm w window]
  omega

theorem Holds.length_le (h : stream.Holds params values) : values.length ≤ stream.dataSize := by
  rw [h.dataSize]
  exact params.codec.length_le_length_units values

theorem Indexed.valuesPerBranch_pos [AddCommMonoid Index] (_ : stream.Indexed params values)
    (h : stream.Holds params values) (hlarge : params.valuesPerBranch < stream.dataSize) :
    0 < params.valuesPerBranch := by
  cases values with
  | nil =>
      rw [h.dataSize] at hlarge
      exact absurd hlarge (Nat.not_lt_zero _)
  | cons value values => exact params.valuesPerBranch_pos value

/-- The levels that a search goes through. -/
theorem Indexed.tail [AddCommMonoid Index] (h : stream.Indexed params values)
    (hlarge : params.valuesPerBranch < stream.dataSize) :
    stream.sizeIndex.drop 1 ≠ [] ∧
      IsLevels (fun _ => 1) (params.codec.starts 0 values) params.valuesPerBranch
        params.branchingFactor stream.dataSize (stream.sizeIndex.drop 1) := by
  obtain ⟨htwo, hlength⟩ := h.hasIndex hlarge
  have hcounts := h.counts
  cases hindex : stream.sizeIndex with
  | nil =>
      rw [hindex, List.length_nil] at hlength
      omega
  | cons level levels =>
      rw [hindex] at hcounts hlength
      refine ⟨?_, hcounts.2⟩
      rintro (rfl : levels = [])
      rw [List.length_singleton] at hlength
      omega

/-- The position of a code is the length of the codes before it. -/
theorem Holds.locate_eq [AddCommMonoid Index] (h : stream.Holds params values)
    (hindex : stream.Indexed params values) {idx : Nat} (hidx : idx ≤ values.length) :
    stream.locate params idx = (params.codec.units (values.take idx)).length := by
  obtain ⟨rest, hdata⟩ := h.data
  have hsize := h.dataSize
  have hcodes := h.length_le
  rw [locate]
  by_cases hempty : 0 < stream.dataSize
  · have hskip : ∀ k, k ≤ idx → skipCodes params.codec stream.values stream.dataSize
        stream.dataSize (idx - k) (params.codec.units (values.take k)).length
          = (params.codec.units (values.take idx)).length := by
      intro k hk
      have hsplit : params.codec.units values = params.codec.units (values.take k)
          ++ params.codec.units (values.drop k) := by
        rw [← Codec.units_append, List.take_append_drop]
      rw [skipCodes_eq params.codec (values.drop k) _ rest
        (by rw [List.length_drop]; omega) (by omega)
        (by rw [hdata, hsplit, List.append_assoc]) (by rw [hsize, hsplit, List.length_append]),
        ← List.length_append, ← Codec.units_append, ← List.take_add, Nat.add_sub_cancel' hk]
    have hoffset : ∀ w, w * params.valuesPerBranch < stream.dataSize → 0 < params.valuesPerBranch →
        stream.offsets.getD w 0
          = firstOffset params.valuesPerBranch (params.codec.starts 0 values) w := by
      intro w hw hpos
      have hin : w < divUp stream.dataSize params.valuesPerBranch := by
        rw [← Nat.not_le, divUp_le_iff hpos, Nat.mul_comm]
        omega
      rw [hindex.offsets, List.getD_eq_getElem?_getD, List.getElem?_map, List.getElem?_range hin]
      rfl
    rw [if_pos hempty]
    by_cases hlarge : params.valuesPerBranch < stream.dataSize
    · simp only [if_pos hlarge]
      have hpos := hindex.valuesPerBranch_pos h hlarge
      have hall : ∀ e ∈ params.codec.starts 0 values, e.1 < stream.dataSize := by
        intro e he
        have := params.codec.lt_of_mem_starts he
        omega
      have hb : 0 < params.branchingFactor := Nat.lt_of_lt_of_le Nat.zero_lt_two params.two_le
      obtain ⟨hne, hlevels⟩ := hindex.tail hlarge
      by_cases hlast : idx < values.length
      · have hbelow : below (params.codec.starts 0 values) (params.valuesPerBranch
            * params.branchingFactor ^ ((stream.sizeIndex.drop 1).length - 1) * 0) = 0 := by
          rw [Nat.mul_zero, below_zero]
        obtain ⟨w, hfound, hle, hlt⟩ := locateIndex_some hpos hb hall (by simpa using hlast) hne
          hlevels (Nat.le_trans (Nat.le_of_eq hbelow) (Nat.zero_le idx))
        rw [hbelow] at hfound
        rw [hfound]
        obtain ⟨hw, hposition⟩ := firstOffset_eq params.codec hpos hlast hle hlt
        rw [← hsize] at hw
        rw [← hoffset w hw hpos] at hposition
        simp only
        rw [hposition]
        exact hskip _ hle
      · have hnone := locateIndex_none hpos hb hall hlevels
          (Nat.le_trans (Nat.le_of_eq (params.codec.length_starts 0 values))
            (Nat.le_of_not_lt hlast))
        cases hfound : locateIndex params.branchingFactor idx (stream.sizeIndex.drop 1) 0 0 with
        | mk window count =>
            rw [hfound] at hnone
            cases hnone
            have hend : values.take idx = values := List.take_of_length_le (by omega)
            simp only
            rw [hend, hsize]
    · simp only [if_neg hlarge]
      have hzero : firstOffset params.valuesPerBranch (params.codec.starts 0 values) 0 = 0 :=
        firstOffset_zero params.codec values
      have hpos : 0 < params.valuesPerBranch := by omega
      have hstart := hskip 0 (Nat.zero_le idx)
      rw [Nat.zero_mul, hoffset 0 (by omega) hpos, hzero]
      exact hstart
  · have hnil : idx = 0 := by omega
    rw [if_neg hempty, hnil]
    rfl

section Reindex

variable [AddCommMonoid Index]

theorem bucketSum_cons {α M : Type} [AddCommMonoid M] (f : α → M) (e : Nat × α)
    (entries : List (Nat × α)) (d i : Nat) :
    bucketSum f (e :: entries) d i = (if e.1 / d = i then f e.2 else 0) + bucketSum f entries d i :=
  rfl

theorem bucketSum_eq_zero {α M : Type} [AddCommMonoid M] (f : α → M) {entries : List (Nat × α)}
    {d i : Nat} (h : ∀ e ∈ entries, e.1 / d ≠ i) : bucketSum f entries d i = 0 := by
  induction entries with
  | nil => rfl
  | cons e entries ih =>
      rw [bucketSum_cons, if_neg (h e List.mem_cons_self), zero_add,
        ih fun e he => h e (List.mem_cons_of_mem _ he)]

/-- An entry of the bucket that a sum stands for. -/
theorem bucketSum_stay {α M : Type} [AddCommMonoid M] (f : α → M) {e : Nat × α} {d c : Nat}
    (h : e.1 / d = c) (entries : List (Nat × α)) (sum : M) (i : Nat) :
    (if i = 0 then sum + f e.2 else 0) + bucketSum f entries d (c + i)
      = (if i = 0 then sum else 0) + bucketSum f (e :: entries) d (c + i) := by
  rw [bucketSum_cons]
  cases i with
  | zero => rw [if_pos rfl, if_pos rfl, if_pos (by omega), add_assoc]
  | succ i => rw [if_neg (Nat.succ_ne_zero i), if_neg (Nat.succ_ne_zero i), if_neg (by omega),
      zero_add, zero_add]

/-- The first entry of the next bucket. -/
theorem bucketSum_next {α M : Type} [AddCommMonoid M] (f : α → M) {e : Nat × α} {d c : Nat}
    (h : e.1 / d = c + 1) (entries : List (Nat × α)) (i : Nat) :
    (if i = 0 then 0 + f e.2 else 0) + bucketSum f entries d (c + 1 + i)
      = 0 + bucketSum f (e :: entries) d (c + (i + 1)) := by
  rw [bucketSum_cons, Nat.add_assoc c, Nat.add_comm 1]
  cases i with
  | zero => rw [if_pos rfl, if_pos h, add_assoc]
  | succ i => rw [if_neg (Nat.succ_ne_zero i), if_neg (by omega), zero_add, zero_add]

theorem firstOffset_cons_of_ne {window i : Nat} {e : Nat × Value} {entries : List (Nat × Value)}
    (h : e.1 / window ≠ i) : firstOffset window (e :: entries) i = firstOffset window entries i := by
  rw [firstOffset, List.find?_cons_of_neg (by simpa using h)]
  rfl

theorem firstOffset_eq_zero {window i : Nat} {entries : List (Nat × Value)}
    (h : ∀ e ∈ entries, e.1 / window ≠ i) : firstOffset window entries i = 0 := by
  have hnone : entries.find? (fun e => e.1 / window = i) = none := by
    rw [List.find?_eq_none]
    intro e he
    simpa using h e he
  rw [firstOffset, hnone]
  rfl

structure Scanned (params : Params Data Value Index) (entries : List (Nat × Value)) (c : Nat)
    (current : Window Index) (windows : List (Window Index)) : Prop where
  ne_nil : windows ≠ []
  covers : ∀ e ∈ entries, e.1 / params.valuesPerBranch < c + windows.length
  least : ∀ n, c < n → (∀ e ∈ entries, e.1 / params.valuesPerBranch < n) → c + windows.length ≤ n
  offset : ∀ i window, windows[i]? = some window →
    window.offset = if i = 0 then current.offset
      else firstOffset params.valuesPerBranch entries (c + i)
  valueSum : ∀ i window, windows[i]? = some window →
    window.valueSum = (if i = 0 then current.valueSum else 0)
      + bucketSum params.index entries params.valuesPerBranch (c + i)
  sizeCnt : ∀ i window, windows[i]? = some window →
    window.sizeCnt = (if i = 0 then current.sizeCnt else 0)
      + bucketSum (fun _ => 1) entries params.valuesPerBranch (c + i)

theorem Scanned.nil (c : Nat) (current : Window Index) : Scanned params [] c current [current] := by
  have hget : ∀ i window, [current][i]? = some window → i = 0 ∧ window = current := by
    intro i window h
    cases i with
    | zero => exact ⟨rfl, (Option.some.inj h).symm⟩
    | succ i => cases h
  refine ⟨List.cons_ne_nil _ _, fun e he => absurd he List.not_mem_nil, fun n hn _ => hn, ?_, ?_, ?_⟩
  · intro i window h
    obtain ⟨rfl, rfl⟩ := hget i window h
    rfl
  · intro i window h
    obtain ⟨rfl, rfl⟩ := hget i window h
    exact (add_zero _).symm
  · intro i window h
    obtain ⟨rfl, rfl⟩ := hget i window h
    rfl

/-- A code in the current window. -/
theorem Scanned.stay {entries : List (Nat × Value)} {c : Nat} {current : Window Index}
    {windows : List (Window Index)} {e : Nat × Value} (hkey : e.1 / params.valuesPerBranch = c)
    (h : Scanned params entries c
      ⟨current.offset, current.valueSum + params.index e.2, current.sizeCnt + 1⟩ windows) :
    Scanned params (e :: entries) c current windows := by
  have hlength := List.length_pos_iff.mpr h.ne_nil
  refine ⟨h.ne_nil, ?_, ?_, ?_, ?_, ?_⟩
  · intro e' he'
    obtain rfl | he' := List.mem_cons.mp he'
    · omega
    · exact h.covers e' he'
  · exact fun n hn hall => h.least n hn fun e' he' => hall e' (List.mem_cons_of_mem _ he')
  · intro i window hi
    rw [h.offset i window hi]
    cases i with
    | zero => rfl
    | succ i => rw [if_neg (Nat.succ_ne_zero i), if_neg (Nat.succ_ne_zero i),
        firstOffset_cons_of_ne (by omega)]
  · intro i window hi
    rw [h.valueSum i window hi]
    exact bucketSum_stay params.index hkey entries current.valueSum i
  · intro i window hi
    rw [h.sizeCnt i window hi]
    exact bucketSum_stay (fun _ => 1) hkey entries current.sizeCnt i

/-- The first code of the next window. -/
theorem Scanned.next {entries : List (Nat × Value)} {c : Nat} {current : Window Index}
    {windows : List (Window Index)} {e : Nat × Value} (hkey : e.1 / params.valuesPerBranch = c + 1)
    (hlater : ∀ e' ∈ entries, c < e'.1 / params.valuesPerBranch)
    (h : Scanned params entries (c + 1)
      ⟨e.1 - (c + 1) * params.valuesPerBranch, 0 + params.index e.2, 0 + 1⟩ windows) :
    Scanned params (e :: entries) c current (current :: windows) := by
  have hlater' : ∀ e' ∈ e :: entries, e'.1 / params.valuesPerBranch ≠ c := by
    intro e' he'
    obtain rfl | he' := List.mem_cons.mp he'
    · omega
    · exact Nat.ne_of_gt (hlater e' he')
  have hlength := List.length_pos_iff.mpr h.ne_nil
  refine ⟨List.cons_ne_nil _ _, ?_, ?_, ?_, ?_, ?_⟩
  · intro e' he'
    rw [List.length_cons]
    obtain rfl | he' := List.mem_cons.mp he'
    · omega
    · have := h.covers e' he'
      omega
  · intro n hn hall
    have hcons := hall e List.mem_cons_self
    have := h.least n (by omega) fun e' he' => hall e' (List.mem_cons_of_mem _ he')
    rw [List.length_cons]
    omega
  · intro i window hi
    cases i with
    | zero => rw [← Option.some.inj hi, if_pos rfl]
    | succ i =>
        rw [h.offset i window hi, if_neg (Nat.succ_ne_zero i)]
        cases i with
        | zero =>
            have hfind : (e :: entries).find? (fun e => e.1 / params.valuesPerBranch = c + (0 + 1))
                = some e := List.find?_cons_of_pos (by simpa using hkey)
            rw [if_pos rfl, firstOffset, hfind]
            rfl
        | succ i =>
            rw [if_neg (Nat.succ_ne_zero i), firstOffset_cons_of_ne (by omega)]
            congr 1
            omega
  · intro i window hi
    cases i with
    | zero =>
        cases hi
        rw [if_pos rfl, Nat.add_zero, bucketSum_eq_zero _ hlater', add_zero]
    | succ i =>
        rw [h.valueSum i window hi]
        exact bucketSum_next params.index hkey entries i
  · intro i window hi
    cases i with
    | zero =>
        cases hi
        rw [if_pos rfl, Nat.add_zero, bucketSum_eq_zero _ hlater', Nat.add_zero]
    | succ i =>
        rw [h.sizeCnt i window hi]
        exact bucketSum_next (fun _ => 1) hkey entries i

/-- The first code of the next window starts within the reach of an offset, since it is behind a
code that starts in the current one. -/
theorem scanWindows_scanned {dataSize : Nat} {data : List Data} :
    ∀ {values : List Value} (done rest : List Data) {fuel c : Nat} {current : Window Index},
      values.length ≤ fuel → data = done ++ (params.codec.units values ++ rest) →
      dataSize = done.length + (params.codec.units values).length →
      c * params.valuesPerBranch ≤ done.length →
      (values ≠ [] → done.length < (c + 1) * params.valuesPerBranch + params.valuesPerBranch ∧
        done.length < (c + 1) * params.valuesPerBranch + 2 ^ params.codec.bitsPerOffset) →
      Scanned params (params.codec.starts done.length values) c current
        (scanWindows params data dataSize fuel done.length ((c + 1) * params.valuesPerBranch)
          current) := by
  intro values
  induction values with
  | nil =>
      intro done rest fuel c current hfuel hdata hsize _ _
      have hend : ¬ done.length < dataSize := by
        rw [hsize]
        exact Nat.lt_irrefl _
      cases fuel with
      | zero => exact Scanned.nil c current
      | succ fuel =>
          rw [scanWindows, if_neg hend]
          exact Scanned.nil c current
  | cons value values ih =>
      intro done rest fuel c current hfuel hdata hsize hlow hhigh
      obtain ⟨hwindow, hoffset⟩ := hhigh (List.cons_ne_nil _ _)
      obtain ⟨fuel, rfl⟩ : ∃ f, fuel = f + 1 := ⟨fuel - 1, by rw [List.length_cons] at hfuel; omega⟩
      have hlength := params.codec.length_encode_pos value
      have hcode := params.code_lt value
      have hbits := params.codec.length_le_offset value
      rw [Codec.units_cons, List.append_assoc] at hdata
      rw [Codec.units_cons, List.length_append] at hsize
      have hunits : data.drop done.length
          = params.codec.encode value ++ (params.codec.units values ++ rest) := by
        rw [hdata, List.drop_left]
      have hrest : ∀ {c' : Nat} {current' : Window Index}, c' * params.valuesPerBranch
          ≤ done.length → done.length < (c' + 1) * params.valuesPerBranch →
          Scanned params (params.codec.starts (done.length + (params.codec.encode value).length)
            values) c' current' (scanWindows params data dataSize fuel
              (done.length + (params.codec.encode value).length)
              ((c' + 1) * params.valuesPerBranch) current') := by
        intro c' current' hlow' hhigh'
        rw [← List.length_append]
        apply ih (done ++ params.codec.encode value) rest (Nat.le_of_succ_le_succ hfuel)
        · rw [hdata, List.append_assoc]
        · rw [hsize, List.length_append, Nat.add_assoc]
        · rw [List.length_append]
          omega
        · intro _
          rw [List.length_append]
          omega
      have hpos : 0 < params.valuesPerBranch := params.valuesPerBranch_pos value
      have hsucc : (c + 1 + 1) * params.valuesPerBranch
          = (c + 1) * params.valuesPerBranch + params.valuesPerBranch := Nat.succ_mul _ _
      rw [scanWindows, if_pos (by omega)]
      simp only [hunits, params.codec.decode_encode, params.codec.length_encode]
      by_cases hnext : (c + 1) * params.valuesPerBranch ≤ done.length
      · rw [if_pos hnext, Nat.mod_eq_of_lt (by omega), ← Nat.succ_mul]
        refine Scanned.next ?_ ?_ (hrest hnext (by omega))
        · rw [Nat.div_eq_iff hpos]
          change _ ≤ done.length ∧ done.length ≤ _
          omega
        · intro e he
          have hge := params.codec.le_of_mem_starts he
          rw [Nat.lt_iff_add_one_le, Nat.le_div_iff_mul_le hpos]
          omega
      · rw [if_neg hnext]
        refine Scanned.stay ?_ (hrest hlow (by omega))
        rw [Nat.div_eq_iff hpos]
        rw [Nat.succ_mul] at hnext
        change _ ≤ done.length ∧ done.length ≤ _
        omega

/-- What is written and what is left cleared is what a function gives. -/
theorem padded_eq {α β : Type} {zero : α} {entries : List β} {g : β → α} {f : Nat → α} {n : Nat}
    (hle : entries.length ≤ n) (hentry : ∀ i e, entries[i]? = some e → g e = f i)
    (hzero : ∀ i, entries.length ≤ i → f i = zero) :
    padded zero (entries.map g) n = (List.range n).map f := by
  apply List.ext_getElem
  · simp only [padded, List.length_append, List.length_map, List.length_replicate,
      List.length_range]
    omega
  · intro i hi hi'
    rw [List.getElem_map, List.getElem_range]
    simp only [padded]
    by_cases hlt : i < entries.length
    · rw [List.getElem_append_left (by simpa using hlt), List.getElem_map]
      exact hentry i _ (List.getElem?_eq_getElem hlt)
    · rw [List.getElem_append_right (by simpa using hlt), List.getElem_replicate]
      exact (hzero i (Nat.le_of_not_lt hlt)).symm

theorem upperLevels_isLevels {M : Type} [AddCommMonoid M] (f : Value → M)
    {entries : List (Nat × Value)} {b total : Nat} (hb : 0 < b)
    (hall : ∀ e ∈ entries, e.1 < total) :
    ∀ {fuel d : Nat}, 0 < d →
      IsLevels f entries d b total (upperLevels b (bucketLevel f entries d (divUp total d))
        (upperSizes b fuel (divUp total d))).reverse := by
  intro fuel
  induction fuel with
  | zero =>
      intro d hd
      simp [upperSizes, upperLevels, IsLevels]
  | succ fuel ih =>
      intro d hd
      have hlevel : upperLevel b (bucketLevel f entries d (divUp total d)) (divUp total (d * b))
          = bucketLevel f entries (d * b) (divUp total (d * b)) := by
        refine List.map_congr_left fun i _ => ?_
        exact sum_group f hb fun e he => lt_mul_divUp hd (hall e he)
      rw [upperSizes, divUp_divUp hd hb]
      have hupper := ih (Nat.mul_pos hd hb)
      split_ifs with hmore
      · rw [upperLevels, List.reverse_cons, isLevels_concat, hlevel]
        exact ⟨hupper, rfl⟩
      · rw [upperLevels, List.reverse_cons, isLevels_concat, hlevel]
        refine ⟨?_, rfl⟩
        simp [upperLevels, IsLevels]

theorem length_upperLevels {M : Type} [AddCommMonoid M] (b : Nat) (level : List M)
    (sizes : List Nat) : (upperLevels b level sizes).length = sizes.length + 1 := by
  induction sizes generalizing level with
  | nil => rfl
  | cons size sizes ih => rw [upperLevels, List.length_cons, ih, List.length_cons]

theorem Holds.reindexBlock (h : stream.Holds params values) :
    (stream.reindexBlock params).Holds params values := by
  unfold Stream.reindexBlock
  split_ifs
  · exact ⟨h.data, h.dataSize⟩
  · exact ⟨h.data, h.dataSize⟩

theorem Holds.scanned (h : stream.Holds params values) (hpos : 0 < params.valuesPerBranch) :
    Scanned params (params.codec.starts 0 values) 0 ⟨0, 0, 0⟩
      (scanWindows params stream.values stream.dataSize stream.dataSize 0 params.valuesPerBranch
        ⟨0, 0, 0⟩) := by
  obtain ⟨rest, hdata⟩ := h.data
  have hsize := h.dataSize
  have hbits : 0 < 2 ^ params.codec.bitsPerOffset := Nat.pow_pos Nat.zero_lt_two
  have hscan : Scanned params (params.codec.starts 0 values) 0 ⟨0, 0, 0⟩
      (scanWindows params stream.values stream.dataSize stream.dataSize 0
        ((0 + 1) * params.valuesPerBranch) ⟨0, 0, 0⟩) := by
    apply scanWindows_scanned [] rest h.length_le hdata
    · rw [hsize, List.length_nil, Nat.zero_add]
    · exact Nat.le_of_eq (Nat.zero_mul _)
    · intro _
      rw [List.length_nil]
      omega
  rw [Nat.zero_add, Nat.one_mul] at hscan
  exact hscan

/-- The lowest level of the indexes, and the offsets. -/
theorem Scanned.padded {entries : List (Nat × Value)} {windows : List (Window Index)} {n : Nat}
    (h : Scanned params entries 0 ⟨0, 0, 0⟩ windows) (hle : windows.length ≤ n)
    (hzero : firstOffset params.valuesPerBranch entries 0 = 0) :
    Stream.padded 0 (windows.map Window.offset) n
        = (List.range n).map (firstOffset params.valuesPerBranch entries) ∧
      Stream.padded 0 (windows.map Window.valueSum) n
        = bucketLevel params.index entries params.valuesPerBranch n ∧
      Stream.padded 0 (windows.map Window.sizeCnt) n
        = bucketLevel (fun _ => 1) entries params.valuesPerBranch n := by
  have hnone : ∀ i, windows.length ≤ i → ∀ e ∈ entries, e.1 / params.valuesPerBranch ≠ i := by
    intro i hi e he
    have := h.covers e he
    omega
  refine ⟨padded_eq hle ?_ ?_, padded_eq hle ?_ ?_, padded_eq hle ?_ ?_⟩
  · intro i window hi
    rw [h.offset i window hi, Nat.zero_add]
    split_ifs with hfirst
    · rw [hfirst, hzero]
    · rfl
  · exact fun i hi => firstOffset_eq_zero (hnone i hi)
  · intro i window hi
    rw [h.valueSum i window hi, ite_self, zero_add, Nat.zero_add]
  · exact fun i hi => bucketSum_eq_zero _ (hnone i hi)
  · intro i window hi
    rw [h.sizeCnt i window hi, ite_self, Nat.zero_add, Nat.zero_add]
  · exact fun i hi => bucketSum_eq_zero _ (hnone i hi)

theorem Holds.indexed (h : stream.Holds params values) :
    (stream.reindexBlock params).Indexed params values := by
  have hsize := h.dataSize
  have hall : ∀ e ∈ params.codec.starts 0 values, e.1 < stream.dataSize := by
    intro e he
    have := params.codec.lt_of_mem_starts he
    omega
  unfold Stream.reindexBlock
  split_ifs with hlarge
  · have hpos : 0 < params.valuesPerBranch := by
      cases values with
      | nil =>
          rw [hsize] at hlarge
          exact absurd hlarge (Nat.not_lt_zero _)
      | cons value tail => exact params.valuesPerBranch_pos value
    have hb : 0 < params.branchingFactor := Nat.lt_of_lt_of_le Nat.zero_lt_two params.two_le
    have hscan := h.scanned hpos
    -- every window that the scan has seen is one of the stream's
    have hsome : 0 < divUp stream.dataSize params.valuesPerBranch := by
      refine Nat.pos_of_ne_zero fun hzero => ?_
      have := (divUp_le_iff hpos).mp (Nat.le_of_eq hzero)
      omega
    have hle := hscan.least _ hsome
      fun e he => Nat.div_lt_of_lt_mul (lt_mul_divUp hpos (hall e he))
    rw [Nat.zero_add] at hle
    obtain ⟨hoffsets, hsums, hcounts⟩ := hscan.padded hle (firstOffset_zero params.codec values)
    simp only [hoffsets, hsums, hcounts]
    have hupper := upperSizes_ne_nil params.branchingFactor
      (divUp stream.dataSize params.valuesPerBranch) hsome
    refine ⟨rfl, upperLevels_isLevels params.index hb hall hpos,
      upperLevels_isLevels (fun _ => 1) hb hall hpos, fun hsmall => absurd hlarge (Nat.not_lt.mpr hsmall),
      fun _ => ⟨?_, ?_⟩⟩
    · rw [List.length_reverse, length_upperLevels]
      have := List.length_pos_iff.mpr hupper
      omega
    · rw [List.length_reverse, List.length_reverse, length_upperLevels, length_upperLevels]
  · refine ⟨?_, trivial, trivial, fun _ => ⟨rfl, rfl⟩, fun hlarge' => absurd hlarge' hlarge⟩
    -- there is at most one window
    have hwindow : ∀ i, i < divUp stream.dataSize params.valuesPerBranch → i = 0 := by
      intro i hi
      by_cases hpos : 0 < params.valuesPerBranch
      · have : divUp stream.dataSize params.valuesPerBranch ≤ 1 := by
          rw [divUp_le_iff hpos]
          omega
        omega
      · have hempty : stream.dataSize = 0 := by omega
        rw [hempty] at hi
        simp [divUp] at hi
    apply List.ext_getElem
    · simp
    · intro i hi hi'
      rw [List.length_replicate] at hi
      rw [List.getElem_replicate, List.getElem_map, List.getElem_range, hwindow i hi]
      exact (firstOffset_zero params.codec values).symm

end Reindex

theorem encodeAll_eq (codec : Codec Data Value) (values : List Value) :
    ∀ (front hole rest : List Data), hole.length = (codec.units values).length →
      encodeAll codec (front ++ (hole ++ rest)) front.length values
        = front ++ (codec.units values ++ rest) := by
  induction values with
  | nil =>
      intro front hole rest hhole
      cases List.length_eq_zero_iff.mp hhole
      rfl
  | cons value values ih =>
      intro front hole rest hhole
      rw [Codec.units_cons, List.length_append] at hhole
      obtain ⟨old, hole', rfl, hold⟩ : ∃ old hole', hole = old ++ hole' ∧
          old.length = (codec.encode value).length :=
        ⟨hole.take (codec.encode value).length, hole.drop (codec.encode value).length,
          (List.take_append_drop _ _).symm, List.length_take_of_le (by omega)⟩
      rw [List.length_append] at hhole
      have hrest := ih (front ++ codec.encode value) hole' rest (by omega)
      rw [List.length_append] at hrest
      rw [encodeAll, List.append_assoc, overwrite_append front old (hole' ++ rest) _ hold,
        ← List.append_assoc front, hrest]
      simp only [Codec.units_cons, List.append_assoc]

variable {front old back : List Data}

theorem Carries.overwrite {new : List Data} (h : stream.Carries (front ++ (old ++ back)))
    (hlength : old.length = new.length) :
    Carries { stream with values := Lib.overwrite stream.values front.length new }
      (front ++ (new ++ back)) := by
  obtain ⟨rest, hdata⟩ := h.data
  refine ⟨⟨rest, ?_⟩, ?_⟩
  · simp only [hdata, List.append_assoc]
    rw [overwrite_append front old (back ++ rest) new hlength]
  · rw [h.dataSize]
    simp only [List.length_append, hlength]

theorem Carries.encodeAll {values : List Value} (codec : Codec Data Value)
    (h : stream.Carries (front ++ (old ++ back)))
    (hlength : old.length = (codec.units values).length) :
    Carries { stream with values := Stream.encodeAll codec stream.values front.length values }
      (front ++ (codec.units values ++ back)) := by
  obtain ⟨rest, hdata⟩ := h.data
  refine ⟨⟨rest, ?_⟩, ?_⟩
  · simp only [hdata, List.append_assoc]
    rw [encodeAll_eq codec values front old (back ++ rest) hlength]
  · rw [h.dataSize]
    simp only [List.length_append, hlength]

theorem Carries.resize (h : stream.Carries front) (params : Params Data Value Index) (size : Nat)
    (hsize : front.length ≤ size) :
    ∃ rest, size ≤ front.length + rest.length ∧
      (stream.resize params size).values = front ++ rest ∧
      (stream.resize params size).dataSize = front.length := by
  obtain ⟨rest, hdata⟩ := h.data
  have hroom := params.le_segment size
  obtain ⟨rest', hlength, hresized⟩ := exists_resize params.junk front rest (params.segment size)
    (by omega)
  refine ⟨rest', by omega, ?_, h.dataSize⟩
  rw [Stream.resize, hdata, hresized]

/-- A gap behind `front`. -/
theorem Carries.insertSpace (h : stream.Carries (front ++ back)) (params : Params Data Value Index)
    (length : Nat) : ∃ hole, hole.length = length ∧
      (stream.insertSpace params front.length length).Carries (front ++ (hole ++ back)) := by
  have hsize := h.dataSize
  rw [List.length_append] at hsize
  obtain ⟨rest, hroom, hdata, -⟩ := h.resize params (stream.dataSize + length)
    (by rw [List.length_append]; omega)
  rw [List.length_append] at hroom
  obtain ⟨hole, rest', hhole, -, hmoved⟩ := exists_moveUp front back rest length (by omega)
  refine ⟨hole, hhole, ⟨rest', ?_⟩, ?_⟩
  · have hback : stream.dataSize - front.length = back.length := by omega
    rw [Stream.insertSpace, hdata, hback, List.append_assoc, hmoved]
    simp only [List.append_assoc]
  · rw [Stream.insertSpace]
    simp only [List.length_append]
    omega

/-- What is behind a part moves down over it. -/
theorem Carries.moveDown (h : stream.Carries (front ++ (old ++ back))) :
    Carries { stream with
      values := moveUnits stream.values (front.length + old.length) front.length
        (stream.dataSize - (front.length + old.length))
      dataSize := stream.dataSize - old.length } (front ++ back) := by
  obtain ⟨rest, hdata⟩ := h.data
  have hsize := h.dataSize
  simp only [List.length_append] at hsize
  obtain ⟨rest', -, hmoved⟩ := exists_moveDown front old back rest
  have hback : stream.dataSize - (front.length + old.length) = back.length := by omega
  refine ⟨⟨rest', ?_⟩, ?_⟩
  · simp only [hback, hdata, List.append_assoc, hmoved]
  · simp only [List.length_append]
    omega

theorem Carries.removeSpace (h : stream.Carries (front ++ (old ++ back)))
    (params : Params Data Value Index) :
    (stream.removeSpace params front.length old.length).Carries (front ++ back) := by
  have hmoved := h.moveDown
  have hsize := hmoved.dataSize
  obtain ⟨rest, -, hresized, -⟩ := hmoved.resize params (stream.dataSize - old.length)
    (Nat.le_of_eq hsize.symm)
  exact ⟨⟨rest, hresized⟩, hsize⟩

theorem Carries.sizeRoom (h : stream.Carries (front ++ (old ++ back)))
    (params : Params Data Value Index) (length : Nat) :
    ∃ room, room.length = length ∧
      (stream.sizeRoom params front.length old.length length).Carries (front ++ (room ++ back)) := by
  unfold Stream.sizeRoom
  split_ifs with hlonger hshorter
  · obtain ⟨hole, hhole, hroom⟩ := h.insertSpace params (length - old.length)
    refine ⟨hole ++ old, ?_, ?_⟩
    · rw [List.length_append]
      omega
    · rw [List.append_assoc]
      exact hroom
  · -- the front part of the old units goes
    refine ⟨old.drop (old.length - length), ?_, ?_⟩
    · rw [List.length_drop]
      omega
    · rw [← List.take_append_drop (old.length - length) old, List.append_assoc] at h
      have hremoved := h.removeSpace params
      rw [List.length_take_of_le (Nat.sub_le _ _)] at hremoved
      exact hremoved
  · exact ⟨old, by omega, h⟩

theorem Holds.split (h : stream.Holds params values) {left right : List Value}
    (hsplit : values = left ++ right) :
    stream.Carries (params.codec.units left ++ params.codec.units right) := by
  rw [Holds, hsplit, Codec.units_append] at h
  exact h

/-- `update_value` sizes the room of the old code for the new one. -/
theorem Holds.updateValue [AddCommMonoid Index] [DecidableEq Value] {left right : List Value}
    {value : Value} (h : stream.Holds params (left ++ value :: right))
    (hindex : stream.Indexed params (left ++ value :: right)) (update : Value → Value) :
    (stream.updateValue params left.length update).Holds params (left ++ update value :: right) ∧
      (stream.updateValue params left.length update).Indexed params
        (left ++ update value :: right) := by
  have hpos : stream.locate params left.length = (params.codec.units left).length := by
    rw [h.locate_eq hindex (by rw [List.length_append]; omega), List.take_left]
  have hcarries : stream.Carries (params.codec.units left
      ++ (params.codec.encode value ++ params.codec.units right)) := h.split rfl
  obtain ⟨rest, hdata⟩ := h.data
  have hunits : stream.values.drop (params.codec.units left).length
      = params.codec.encode value ++ (params.codec.units right ++ rest) := by
    rw [hdata, Codec.units_append, List.append_assoc, List.drop_left, Codec.units_cons,
      List.append_assoc]
  rw [Stream.updateValue]
  simp only [hpos, hunits, params.codec.decode_encode, params.codec.length_encode]
  by_cases hsame : update value = value
  · rw [if_pos hsame, hsame]
    exact ⟨h, hindex⟩
  · rw [if_neg hsame]
    obtain ⟨room, hroom, hsized⟩ := hcarries.sizeRoom params
      (params.codec.encode (update value)).length
    have hwritten := hsized.overwrite hroom
    rw [← Codec.units_cons, ← Codec.units_append] at hwritten
    exact ⟨Holds.reindexBlock hwritten, Holds.indexed hwritten⟩

end Stream

end Memoria.VleTree

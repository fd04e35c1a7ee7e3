import Memoria.BitBuffer

/-!
# Bit buffers: reading, filling and moving

Every tool is described by the bits it reads and leaves. A range is cut at the cell boundaries, and
each piece lies in one cell.
-/

namespace Memoria.BitBuffer

open Lib

variable {w : ℕ}

theorem getLsbD_makeMask {start length : ℕ} (h : start + length ≤ w) (j : ℕ) :
    (makeMask w start length).getLsbD j = decide (start ≤ j ∧ j < start + length) := by
  rw [makeMask]
  split_ifs with hlen
  · rw [makeMask0, BitVec.getLsbD_ushiftRight, BitVec.getLsbD_sshiftRight, BitVec.msb_intMin,
      BitVec.getLsbD_intMin, Bool.eq_iff_iff]
    split_ifs with hlow
    all_goals
      simp only [Bool.and_eq_true, Bool.not_eq_true', decide_eq_false_iff_not, decide_eq_true_eq]
      omega
  · rw [show (0 : BitVec w) = 0#w from rfl, BitVec.getLsbD_zero, eq_comm, decide_eq_false_iff_not]
    omega

theorem getLsbD_getBits0 (buf : Cells w) {idx nbits : ℕ} (h : idx % w + nbits ≤ w) (i : ℕ) :
    (getBits0 buf idx nbits).getLsbD i = (decide (i < nbits) && bit buf (idx + i)) := by
  rw [getBits0]
  split_ifs with hn
  · rw [BitVec.getLsbD_and, BitVec.getLsbD_ushiftRight, getLsbD_makeMask (by omega), Bool.and_comm]
    by_cases hi : i < nbits
    · rw [bit_add buf (by omega)]
      simp [hi]
    · simp [hi]
  · simp [Nat.eq_zero_of_not_pos hn]

/-- A group that does not lie in one cell ends at the start of the next one. -/
theorem straddle (hw : 0 < w) {idx nbits nbits0 : ℕ} (h : nbits ≤ w) (htwo : ¬ idx % w + nbits ≤ w)
    (hlow : nbits - (idx % w + nbits - w) = nbits0) :
    idx % w + nbits0 ≤ w ∧ (idx + nbits0) % w + (idx % w + nbits - w) ≤ w ∧
      idx % w + nbits - w = nbits - nbits0 := by
  have hidx := Nat.mod_lt idx hw
  have hnext : idx + nbits0 = (idx / w + 1) * w := by
    have := Nat.div_add_mod' idx w
    rw [Nat.add_one_mul]
    omega
  rw [hnext, Nat.mul_mod_left]
  omega

theorem getLsbD_getBits (hw : 0 < w) (buf : Cells w) {idx nbits : ℕ} (h : nbits ≤ w) (i : ℕ) :
    (getBits buf idx nbits).getLsbD i = (decide (i < nbits) && bit buf (idx + i)) := by
  rw [getBits]
  dsimp only
  split_ifs with hone htwo
  · exact getLsbD_getBits0 buf hone i
  · generalize hlow : nbits - (idx % w + nbits - w) = nbits0
    obtain ⟨hfirst, hsecond, hsum⟩ := straddle hw h hone hlow
    rw [BitVec.getLsbD_or, getLsbD_getBits0 buf hfirst, BitVec.getLsbD_shiftLeft,
      getLsbD_getBits0 buf hsecond, hsum]
    by_cases hi : i < nbits0
    · simp [hi, show i < nbits by omega]
    · rw [show idx + nbits0 + (i - nbits0) = idx + i by omega, Bool.eq_iff_iff]
      simp only [Bool.or_eq_true, Bool.and_eq_true, Bool.not_eq_true', decide_eq_false_iff_not,
        decide_eq_true_eq]
      constructor
      · rintro (⟨hi', -⟩ | ⟨⟨-, -⟩, hin, hbit⟩)
        · exact absurd hi' hi
        · exact ⟨by omega, hbit⟩
      · rintro ⟨hin, hbit⟩
        exact .inr ⟨⟨by omega, hi⟩, by omega, hbit⟩
  · omega

theorem bit_setBits0 (buf : Cells w) {idx nbits : ℕ} (bits : BitVec w) (h : idx % w + nbits ≤ w) :
    bit (setBits0 buf idx bits nbits) = written (bit buf) idx nbits bits.getLsbD := by
  rw [setBits0]
  split_ifs with hn
  · apply bit_update_written buf h
    · intro i hi
      simp only [BitVec.getLsbD_or, BitVec.getLsbD_and, BitVec.getLsbD_not,
        BitVec.getLsbD_shiftLeft, getLsbD_makeMask h, Nat.add_sub_cancel_left]
      simp [hi, show idx % w + i < w by omega]
    · intro j hj hout
      have hnot : ¬ (idx % w ≤ j ∧ j < idx % w + nbits) := by omega
      simp only [BitVec.getLsbD_or, BitVec.getLsbD_and, BitVec.getLsbD_not,
        BitVec.getLsbD_shiftLeft, getLsbD_makeMask h]
      simp [hj, hnot]
  · rw [Nat.eq_zero_of_not_pos hn, written_zero]

theorem bit_setBits (hw : 0 < w) (buf : Cells w) {nbits : ℕ} (idx : ℕ) (bits : BitVec w)
    (h : nbits ≤ w) :
    bit (setBits buf idx bits nbits) = written (bit buf) idx nbits bits.getLsbD := by
  rw [setBits]
  dsimp only
  split_ifs with hone htwo
  · exact bit_setBits0 buf bits hone
  · generalize hlow : nbits - (idx % w + nbits - w) = nbits0
    obtain ⟨hfirst, hsecond, hsum⟩ := straddle hw h hone hlow
    rw [bit_setBits0 _ _ hsecond, bit_setBits0 _ _ hfirst,
      show (bits >>> nbits0).getLsbD = fun i => bits.getLsbD (nbits0 + i) from
        funext fun i => BitVec.getLsbD_ushiftRight bits nbits0 i,
      written_written, show nbits0 + (idx % w + nbits - w) = nbits by omega]
  · omega

/-- `GetBits2` reads what `GetBits` reads. -/
theorem getBits2_eq (hw : 0 < w) (buf : Cells w) (pos : ℕ) {nbits : ℕ} (h : nbits ≤ w) :
    getBits2 buf pos nbits = (getBits buf pos nbits, pos + nbits) := by
  have hpos := Nat.mod_lt pos hw
  have hdiv := Nat.div_add_mod' pos w
  have hones : ∀ i n, n ≤ w →
      (BitVec.allOnes w >>> (w - n)).getLsbD i = decide (i < n) := by
    intro i n hn
    rw [BitVec.getLsbD_ushiftRight, BitVec.getLsbD_allOnes, decide_eq_decide]
    omega
  rw [getBits2]
  dsimp only
  split_ifs with htwo
  · congr 1
    apply BitVec.eq_of_getLsbD_eq
    intro i hi
    rw [getLsbD_getBits hw buf h, BitVec.getLsbD_or, BitVec.getLsbD_shiftLeft,
      BitVec.getLsbD_and, hones _ _ (by omega), BitVec.getLsbD_ushiftRight]
    by_cases hlow : i < w - pos % w
    · rw [bit_add buf (by omega)]
      simp [hlow, show i < nbits by omega]
    · have hnext : pos + i = (pos / w + 1) * w + (i - (w - pos % w)) := by
        rw [Nat.add_one_mul]
        omega
      rw [hnext, bit_cell buf _ (by omega), BitVec.getLsbD_of_ge _ (pos % w + i) (by omega),
        Bool.eq_iff_iff]
      simp only [Bool.false_or, Bool.and_eq_true, Bool.not_eq_true', decide_eq_false_iff_not,
        decide_eq_true_eq]
      constructor
      · rintro ⟨-, hbit, hin⟩
        exact ⟨by omega, hbit⟩
      · rintro ⟨hin, hbit⟩
        exact ⟨⟨hi, hlow⟩, hbit, by omega⟩
  · congr 1
    apply BitVec.eq_of_getLsbD_eq
    intro i hi
    rw [getLsbD_getBits hw buf h, BitVec.getLsbD_and, hones _ _ h, BitVec.getLsbD_ushiftRight,
      Bool.and_comm]
    by_cases hin : i < nbits
    · rw [bit_add buf (by omega)]
    · simp [hin]

theorem int32_sub64 {start stop : ℕ} (h : start ≤ stop + 2 ^ 31) (hlen : stop < start + 2 ^ 31) :
    int32 (sub64 stop start) = stop - start := by
  have hmod : sub64 stop start % 2 ^ 32 = (2 ^ 32 + stop - start) % 2 ^ 32 := by
    rw [sub64]
    split_ifs <;> omega
  rw [int32, BitVec.toInt_eq_toNat_bmod, BitVec.toNat_ofNat, hmod, Int.bmod_def]
  omega

theorem int32_of_lt {n : ℕ} (h : n < 2 ^ 31) : int32 n = n :=
  @int32_sub64 0 n (Nat.zero_le _) (by omega)

/-- A range that leaves its first cell: its rest of this cell, whole cells, the start of the cell of
its end. -/
theorem rangeCells (hw : 0 < w) {start stop : ℕ} (h : start + (w - start % w) ≤ stop) :
    (start / w + 1) * w = start + (w - start % w) ∧
      stop / w * w = start + ((w - start % w) + (stop / w - (start / w + 1)) * w) := by
  have hstart := Nat.div_add_mod' start w
  have hin := Nat.mod_lt start hw
  have hnext : (start / w + 1) * w = start + (w - start % w) := by
    rw [Nat.add_one_mul]
    omega
  have hcells : start / w + 1 ≤ stop / w := by
    rw [Nat.le_div_iff_mul_le hw]
    omega
  have hmul := Nat.mul_le_mul_right w hcells
  rw [Nat.sub_mul]
  omega

section Fill

variable {put : BitVec w → BitVec w → BitVec w} {all : BitVec w} {value : Bool}

theorem getLsbD_put
    (hput : ∀ cell mask j, j < w → (put cell mask).getLsbD j =
      if mask.getLsbD j then value else cell.getLsbD j)
    (cell : BitVec w) {start n j : ℕ} (h : start + n ≤ w) (hj : j < w) :
    (put cell (makeMask w start n)).getLsbD j =
      if start ≤ j ∧ j < start + n then value else cell.getLsbD j := by
  rw [hput _ _ _ hj, getLsbD_makeMask h]
  by_cases hin : start ≤ j ∧ j < start + n
  · rw [if_pos (decide_eq_true hin), if_pos hin]
  · rw [decide_eq_false hin, if_neg Bool.false_ne_true, if_neg hin]

/-- The bits that a mask fills in one cell. -/
theorem bit_put
    (hput : ∀ cell mask j, j < w → (put cell mask).getLsbD j =
      if mask.getLsbD j then value else cell.getLsbD j)
    (buffer : Cells w) {idx n : ℕ} (h : idx % w + n ≤ w) :
    bit (Function.update buffer (idx / w) (put (buffer (idx / w)) (makeMask w (idx % w) n))) =
      written (bit buffer) idx n fun _ => value := by
  apply bit_update_written buffer h
  · intro i hi
    rw [getLsbD_put hput _ h (by omega), if_pos (by omega)]
  · intro j hj hout
    rw [getLsbD_put hput _ h hj, if_neg (by omega)]

theorem bit_put_cell (hw : 0 < w)
    (hput : ∀ cell mask j, j < w → (put cell mask).getLsbD j =
      if mask.getLsbD j then value else cell.getLsbD j)
    (buffer : Cells w) (c : ℕ) {n : ℕ} (h : n ≤ w) :
    bit (Function.update buffer c (put (buffer c) (makeMask w 0 n))) =
      written (bit buffer) (c * w) n fun _ => value := by
  have hput := @bit_put w put value hput buffer (c * w) n
  rw [Nat.mul_div_cancel c hw, Nat.mul_mod_left, Nat.zero_add] at hput
  exact hput h

/-- The loop over whole cells. -/
theorem bit_fillCells (hw : 0 < w) (hall : ∀ j < w, all.getLsbD j = value) (buffer : Cells w) (a n : ℕ) :
    bit ((List.range' a n).foldl (fun buffer c => Function.update buffer c all) buffer) =
      written (bit buffer) (a * w) (n * w) fun _ => value := by
  induction n generalizing a buffer with
  | zero => rw [Nat.zero_mul, written_zero]; rfl
  | succ n ih =>
      have hone : bit (Function.update buffer a all) =
          written (bit buffer) (a * w) w fun _ => value := by
        apply bit_update_cell buffer hw (Nat.le_refl w) hall
        intro j hj hge
        omega
      rw [List.range'_succ, List.foldl_cons, ih, hone, Nat.add_one_mul a w,
        written_written _ fun _ => value, Nat.add_comm w, ← Nat.add_one_mul]

theorem bit_fill (hw : 0 < w) (hmax : w < 2 ^ 31)
    (hput : ∀ cell mask j, j < w → (put cell mask).getLsbD j =
      if mask.getLsbD j then value else cell.getLsbD j)
    (hall : ∀ j < w, all.getLsbD j = value)
    (buffer : Cells w) {start stop : ℕ} (hrange : start ≤ stop + 2 ^ 31) :
    bit (fill put all buffer start stop) =
      written (bit buffer) start (stop - start) fun _ => value := by
  have hstart := Nat.div_add_mod' start w
  have hstop := Nat.div_add_mod' stop w
  have hin := Nat.mod_lt start hw
  rw [fill]
  dsimp only
  split_ifs with hone hsuffix
  · rw [int32_sub64 hrange (by omega), bit_put hput buffer (by omega)]
  all_goals obtain ⟨hnext, hlast⟩ := rangeCells hw (Nat.not_lt.mp hone)
  · rw [bit_put_cell hw hput _ _ (Nat.le_of_lt (Nat.mod_lt stop hw)), bit_fillCells hw hall,
      bit_put hput buffer (by omega), hnext, written_written _ fun _ => value, hlast, written_written _ fun _ => value]
    congr 1
    omega
  · rw [bit_fillCells hw hall, bit_put hput buffer (by omega), hnext,
      written_written _ fun _ => value]
    congr 1
    omega

end Fill

theorem toNat_pairCounts {w n : ℕ} (v : BitVec w) {m : BitVec w} (hm : m.toNat = repeated 0x55 n) :
    (v - ((v >>> 1) &&& m)).toNat = pairCounts n v.toNat := by
  have hle : v.toNat / 2 &&& repeated 0x55 n ≤ v.toNat / 2 := Nat.and_le_left
  have hand : ((v >>> 1) &&& m).toNat = v.toNat / 2 &&& repeated 0x55 n := by
    rw [BitVec.toNat_and, BitVec.toNat_ushiftRight, Nat.shiftRight_eq_div_pow, hm, Nat.pow_one]
  rw [BitVec.toNat_sub_of_le (BitVec.le_def.mpr (by omega)), hand, pairCounts]

theorem toNat_nibbleCounts {w n x : ℕ} {v : BitVec w} (hv : v.toNat = pairCounts n x) {m : BitVec w}
    (hm : m.toNat = repeated 0x33 n) (hn : repeated 0x44 n < 2 ^ w) :
    (((v >>> 2) &&& m) + (v &&& m)).toNat = nibbleCounts n x := by
  have hle := nibbleCounts_le_repeated n x
  rw [nibbleCounts] at hle
  rw [BitVec.toNat_add, BitVec.toNat_and, BitVec.toNat_and, BitVec.toNat_ushiftRight,
    Nat.shiftRight_eq_div_pow, hm, hv, Nat.mod_eq_of_lt (Nat.lt_of_le_of_lt hle hn), nibbleCounts]

theorem toNat_byteCounts {w n x : ℕ} {v : BitVec w} (hv : v.toNat = nibbleCounts n x) {m : BitVec w}
    (hm : m.toNat = repeated 0x0F n) (hn : 2 * repeated 0x44 n < 2 ^ w) :
    ((v + (v >>> 4)) &&& m).toNat = byteCounts n x := by
  have hle := nibbleCounts_le_repeated n x
  have hsum : (v + (v >>> 4)).toNat = nibbleCounts n x + nibbleCounts n x / 16 := by
    rw [BitVec.toNat_add, BitVec.toNat_ushiftRight, Nat.shiftRight_eq_div_pow, hv]
    apply Nat.mod_eq_of_lt
    omega
  rw [BitVec.toNat_and, hsum, hm, byteCounts]

theorem toNat_byteCounts64 (v : BitVec 64) : (byteCounts64 v).toNat = byteCounts 8 v.toNat :=
  toNat_byteCounts (toNat_nibbleCounts (toNat_pairCounts v rfl) rfl (by decide)) rfl (by decide)

theorem byteSum64_eq {arg : BitVec 64} {low high : ℕ} (harg : arg.toNat = low + 2 ^ 32 * high)
    (hlow : low < 2 ^ 31) (hhigh : high < 2 ^ 31) :
    byteSum64 arg = ((low + high + (low + high) / 2 ^ 16) +
      (low + high + (low + high) / 2 ^ 16) / 2 ^ 8) % 2 ^ 7 := by
  have hsum : ((arg + (arg >>> 32)).setWidth 32).toNat = low + high := by
    rw [BitVec.toNat_setWidth, BitVec.toNat_add, BitVec.toNat_ushiftRight,
      Nat.shiftRight_eq_div_pow, harg]
    omega
  have hmask : (0x7F#32).toNat = 2 ^ 7 - 1 := rfl
  rw [byteSum64]
  simp only [BitVec.toNat_and, BitVec.toNat_add, BitVec.toNat_ushiftRight, hsum,
    Nat.shiftRight_eq_div_pow, hmask, Nat.and_two_pow_sub_one_eq_mod]
  omega

theorem popCnt64_eq (v : BitVec 64) : popCnt64 v = onesBelow 64 v.toNat := by
  have hbytes := toNat_byteCounts64 v
  have hones : onesBelow 64 v.toNat = onesBelow (8 * 8) v.toNat := rfl
  have hle : ∀ x, onesBelow 8 x ≤ 8 := onesBelow_le 8
  have hzero : ∀ x, onesBelow (8 * 0) x = 0 := fun _ => rfl
  simp only [onesBelow_bytes, hzero] at hones
  simp only [byteCounts_succ, byteCounts_zero] at hbytes
  have h0 := hle (v.toNat % 256)
  have h1 := hle (v.toNat / 256 % 256)
  have h2 := hle (v.toNat / 256 / 256 % 256)
  have h3 := hle (v.toNat / 256 / 256 / 256 % 256)
  have h4 := hle (v.toNat / 256 / 256 / 256 / 256 % 256)
  have h5 := hle (v.toNat / 256 / 256 / 256 / 256 / 256 % 256)
  have h6 := hle (v.toNat / 256 / 256 / 256 / 256 / 256 / 256 % 256)
  have h7 := hle (v.toNat / 256 / 256 / 256 / 256 / 256 / 256 / 256 % 256)
  generalize onesBelow 8 (v.toNat % 256) = c0 at *
  generalize onesBelow 8 (v.toNat / 256 % 256) = c1 at *
  generalize onesBelow 8 (v.toNat / 256 / 256 % 256) = c2 at *
  generalize onesBelow 8 (v.toNat / 256 / 256 / 256 % 256) = c3 at *
  generalize onesBelow 8 (v.toNat / 256 / 256 / 256 / 256 % 256) = c4 at *
  generalize onesBelow 8 (v.toNat / 256 / 256 / 256 / 256 / 256 % 256) = c5 at *
  generalize onesBelow 8 (v.toNat / 256 / 256 / 256 / 256 / 256 / 256 % 256) = c6 at *
  generalize onesBelow 8 (v.toNat / 256 / 256 / 256 / 256 / 256 / 256 / 256 % 256) = c7 at *
  have hsplit : (byteCounts64 v).toNat = (c0 + 256 * (c1 + 256 * (c2 + 256 * c3))) +
      2 ^ 32 * (c4 + 256 * (c5 + 256 * (c6 + 256 * c7))) := by
    omega
  have hhalves : c0 + 256 * (c1 + 256 * (c2 + 256 * c3)) +
        (c4 + 256 * (c5 + 256 * (c6 + 256 * c7))) =
      (c0 + c4) + 256 * ((c1 + c5) + 256 * ((c2 + c6) + 256 * (c3 + c7))) := by
    omega
  rw [popCnt64, byteSum64_eq hsplit (by omega) (by omega), hhalves,
    foldedSum (by omega) (by omega) (by omega) (by omega), hones]
  omega

theorem popCnt32_eq (v : BitVec 32) : popCnt32 v = onesBelow 32 v.toNat := by
  have hnibbles := toNat_nibbleCounts (n := 4) (toNat_pairCounts v (m := 0x55555555#32) rfl)
    (m := 0x33333333#32) rfl (by decide)
  rw [BitVec.add_comm] at hnibbles
  have hbytes := toNat_byteCounts hnibbles (m := 0x0F0F0F0F#32) rfl (by decide)
  have hones : onesBelow 32 v.toNat = onesBelow (8 * 4) v.toNat := rfl
  have hle : ∀ x, onesBelow 8 x ≤ 8 := onesBelow_le 8
  have hzero : ∀ x, onesBelow (8 * 0) x = 0 := fun _ => rfl
  simp only [onesBelow_bytes, hzero] at hones
  simp only [byteCounts_succ, byteCounts_zero] at hbytes
  have h0 := hle (v.toNat % 256)
  have h1 := hle (v.toNat / 256 % 256)
  have h2 := hle (v.toNat / 256 / 256 % 256)
  have h3 := hle (v.toNat / 256 / 256 / 256 % 256)
  have hfactor : (0x01010101#32).toNat = 0x01010101 := rfl
  rw [popCnt32, BitVec.toNat_ushiftRight, BitVec.toNat_mul, hbytes, hones, hfactor,
    Nat.shiftRight_eq_div_pow, Nat.mul_zero, Nat.add_zero, multipliedSum h0 h1 h2 h3]
  omega

theorem popCnt_eq (t : CellType) (v : BitVec t.bits) :
    popCnt t v = (List.range t.bits).countP v.getLsbD :=
  match t with
  | .u32 => popCnt32_eq v
  | .u64 => popCnt64_eq v

theorem countP_range'_add (p : ℕ → Bool) (a m n : ℕ) :
    (List.range' a (m + n)).countP p =
      (List.range' a m).countP p + (List.range' (a + m) n).countP p := by
  rw [← List.range'_append_1, List.countP_append]

theorem countP_range'_congr {p q : ℕ → Bool} {a n : ℕ} (h : ∀ i, a ≤ i → i < a + n → p i = q i) :
    (List.range' a n).countP p = (List.range' a n).countP q := by
  apply List.countP_congr
  intro i hi
  have hmem := List.mem_range'_1.mp hi
  rw [h i hmem.1 hmem.2]

/-- Counting under the mask of a window. -/
theorem countP_window (p : ℕ → Bool) {start length n : ℕ} (h : start + length ≤ n) :
    (List.range n).countP (fun j => p j && decide (start ≤ j ∧ j < start + length)) =
      (List.range' start length).countP p := by
  obtain ⟨rest, rfl⟩ := Nat.exists_eq_add_of_le h
  have hout : ∀ a m, (∀ i, a ≤ i → i < a + m → ¬ (start ≤ i ∧ i < start + length)) →
      (List.range' a m).countP (fun j => p j && decide (start ≤ j ∧ j < start + length)) = 0 := by
    intro a m hno
    apply List.countP_eq_zero.mpr
    intro i hi
    have hmem := List.mem_range'_1.mp hi
    simp [hno i hmem.1 hmem.2]
  rw [List.range_eq_range', countP_range'_add, countP_range'_add, hout 0 start (by omega),
    hout _ rest (by omega), Nat.zero_add, Nat.zero_add, Nat.add_zero]
  apply countP_range'_congr
  intro i hge hlt
  rw [decide_eq_true ⟨hge, hlt⟩, Bool.and_true]

/-- The bits of a group within one cell. -/
theorem countP_cell (buffer : Cells w) (idx : ℕ) {n : ℕ} (h : idx % w + n ≤ w) :
    (List.range' idx n).countP (bit buffer) =
      (List.range' (idx % w) n).countP (buffer (idx / w)).getLsbD := by
  have hidx := Nat.div_add_mod' idx w
  have hmap : List.range' idx n = (List.range' (idx % w) n).map (idx / w * w + ·) := by
    rw [List.map_add_range', hidx]
  rw [hmap, List.countP_map]
  apply countP_range'_congr
  intro j _ hj
  rw [Function.comp_apply, bit_cell buffer _ (by omega)]

theorem popCntRange_eq {t : CellType} (arg : BitVec t.bits) {start length : ℕ}
    (h : start + length ≤ t.bits) :
    popCntRange t arg start length = (List.range' start length).countP arg.getLsbD := by
  rw [popCntRange, popCnt_eq, ← countP_window arg.getLsbD h]
  congr 1
  funext j
  rw [BitVec.getLsbD_and, getLsbD_makeMask h]

theorem CellType.bits_pos (t : CellType) : 0 < t.bits := by
  cases t <;> decide

theorem CellType.bits_le (t : CellType) : t.bits ≤ 64 := by
  cases t <;> decide

theorem popCells_eq {t : CellType} (buffer : Cells t.bits) (a n total : ℕ) :
    (List.range' a n).foldl (fun total c => total + popCnt t (buffer c)) total =
      total + (List.range' (a * t.bits) (n * t.bits)).countP (bit buffer) := by
  induction n generalizing a total with
  | zero => simp
  | succ n ih =>
      have hcell := countP_cell buffer (a * t.bits) (n := t.bits) (by
        rw [Nat.mul_mod_left, Nat.zero_add])
      rw [Nat.mul_mod_left, Nat.mul_div_cancel a t.bits_pos] at hcell
      rw [List.range'_succ, List.foldl_cons, ih, popCnt_eq, Nat.add_one_mul n, Nat.add_comm _ t.bits,
        countP_range'_add, hcell, Nat.add_one_mul a, Nat.add_assoc, List.range_eq_range']

theorem popCount_eq {t : CellType} (buffer : Cells t.bits) {start stop : ℕ}
    (hrange : start ≤ stop + 2 ^ 31) :
    popCount buffer start stop = Bitmap.popCount (bit buffer) start stop := by
  have hw := t.bits_pos
  have hmax := t.bits_le
  have hstart := Nat.div_add_mod' start t.bits
  have hstop := Nat.div_add_mod' stop t.bits
  have hin := Nat.mod_lt start hw
  have hrest := Nat.mod_lt stop hw
  rw [popCount, Bitmap.popCount]
  dsimp only
  split_ifs with hone hsuffix
  · rw [int32_sub64 hrange (by omega), popCntRange_eq _ (by omega), countP_cell _ _ (by omega)]
  all_goals
    obtain ⟨hnext, hlast⟩ := rangeCells hw (Nat.not_lt.mp hone)
    rw [popCells_eq, popCntRange_eq _ (by omega), ← countP_cell _ _ (by omega), hnext,
      ← countP_range'_add]
  · have hcell := countP_cell buffer (stop / t.bits * t.bits) (n := stop % t.bits) (by
      rw [Nat.mul_mod_left, Nat.zero_add]
      exact Nat.le_of_lt hrest)
    rw [Nat.mul_mod_left, Nat.mul_div_cancel _ hw] at hcell
    rw [popCntRange_eq _ (by omega), ← hcell, hlast, ← countP_range'_add]
    congr 2
    omega
  · congr 2
    omega

theorem written_const (bitmap : Bitmap) (start stop : ℕ) (value : Bool) (i : ℕ) :
    written bitmap start (stop - start) (fun _ => value) i =
      if start ≤ i ∧ i < stop then value else bitmap i := by
  apply if_congr _ rfl rfl
  omega

theorem bit_fillOne (hw : 0 < w) (hmax : w < 2 ^ 31) (buffer : Cells w) {start stop : ℕ}
    (hrange : start ≤ stop + 2 ^ 31) :
    bit (fillOne buffer start stop) = Bitmap.fillOne (bit buffer) start stop := by
  have hput : ∀ (cell mask : BitVec w) (j : ℕ), j < w →
      (cell ||| mask).getLsbD j = if mask.getLsbD j then true else cell.getLsbD j := by
    intro cell mask j _
    rw [BitVec.getLsbD_or]
    cases mask.getLsbD j <;> simp
  have hall : ∀ j < w, (makeMask w 0 w).getLsbD j = true := by
    intro j hj
    rw [getLsbD_makeMask (by omega), decide_eq_true (by omega)]
  funext i
  rw [fillOne, bit_fill hw hmax hput hall buffer hrange, written_const, Bitmap.fillOne]

theorem bit_fillZero (hw : 0 < w) (hmax : w < 2 ^ 31) (buffer : Cells w) {start stop : ℕ}
    (hrange : start ≤ stop + 2 ^ 31) :
    bit (fillZero buffer start stop) = Bitmap.fillZero (bit buffer) start stop := by
  have hput : ∀ (cell mask : BitVec w) (j : ℕ), j < w →
      (cell &&& ~~~mask).getLsbD j = if mask.getLsbD j then false else cell.getLsbD j := by
    intro cell mask j hj
    rw [BitVec.getLsbD_and, BitVec.getLsbD_not]
    cases mask.getLsbD j <;> simp [hj]
  have hall : ∀ j < w, (0 : BitVec w).getLsbD j = false := by
    intro j _
    exact BitVec.getLsbD_zero
  funext i
  rw [fillZero, bit_fill hw hmax hput hall buffer hrange, written_const, Bitmap.fillZero]

/-- A group reads back as it was written. -/
theorem getBits_setBits (hw : 0 < w) (buffer : Cells w) (idx : ℕ) {nbits : ℕ} (hn : nbits ≤ w)
    {bits : BitVec w} (hbits : bits.toNat < 2 ^ nbits) :
    getBits (setBits buffer idx bits nbits) idx nbits = bits := by
  apply BitVec.eq_of_getLsbD_eq
  intro i hi
  rw [getLsbD_getBits hw _ hn, bit_setBits hw buffer idx bits hn]
  by_cases hin : i < nbits
  · rw [written_of_mem hin, decide_eq_true hin, Bool.true_and]
  · rw [decide_eq_false hin, Bool.false_and, BitVec.getLsbD, Nat.testBit_lt_two_pow]
    exact Nat.lt_of_lt_of_le hbits (Nat.pow_le_pow_right (by decide) (Nat.le_of_not_lt hin))

/-- The range primitives on the bits of the buffer. The range may be empty, also by ending before it
starts, as far as its length is an `int32_t`. -/
theorem range_primitives (hw : 0 < w) (hmax : w < 2 ^ 31) (buffer : Cells w) (t : CellType)
    (words : Cells t.bits) (start stop : ℕ) (hrange : start ≤ stop + 2 ^ 31) (idx nbits : ℕ)
    (hn : nbits ≤ w) (bits : BitVec w) (hbits : bits.toNat < 2 ^ nbits) :
    bit (fillOne buffer start stop) = Bitmap.fillOne (bit buffer) start stop ∧
      bit (fillZero buffer start stop) = Bitmap.fillZero (bit buffer) start stop ∧
      popCount words start stop = Bitmap.popCount (bit words) start stop ∧
      getBits (setBits buffer idx bits nbits) idx nbits = bits ∧
      ∀ i, i < idx ∨ idx + nbits ≤ i → bit (setBits buffer idx bits nbits) i = bit buffer i := by
  refine ⟨bit_fillOne hw hmax buffer hrange, bit_fillZero hw hmax buffer hrange,
    popCount_eq words hrange, getBits_setBits hw buffer idx hn hbits, ?_⟩
  intro i hi
  rw [bit_setBits hw buffer idx bits hn]
  rcases hi with hlt | hge
  · exact written_of_lt hlt
  · exact written_of_ge hge

theorem range_primitives_straddle :
    getBits (setBits (fun _ => 0 : Cells 8) 6 5#8 3) 6 3 = 5#8 ∧
      @popCount .u64 (fun _ => 5#64) 1 70 = Bitmap.popCount (bit fun _ => 5#64) 1 70 :=
  have h := range_primitives (by decide) (by decide) (fun _ => 0 : Cells 8) .u64 (fun _ => 5#64)
    1 70 (by decide) 6 3 (by decide) 5#8 (by decide)
  ⟨h.2.2.2.1, h.2.2.1⟩

section Moving

variable {β : Type} [DecidableEq β]

def bits (mem : β → Cells w) : β → ℕ → Bool := fun b => bit (mem b)

theorem bits_update (mem : β → Cells w) (dst : β) (buf : Cells w) :
    bits (Function.update mem dst buf) = Function.update (bits mem) dst (bit buf) := by
  funext b
  by_cases hb : b = dst
  · rw [bits, hb, Function.update_self, Function.update_self]
  · rw [bits, Function.update_of_ne hb, Function.update_of_ne hb, bits]

theorem bits_setGetBits (hw : 0 < w) (mem : β → Cells w) (src dst : β) (src_idx dst_idx : ℕ)
    {nbits : ℕ} (h : nbits ≤ w) :
    bits (setGetBits mem src dst src_idx dst_idx nbits) =
      moved (bits mem) src dst src_idx dst_idx nbits := by
  rw [setGetBits, bits_update, bit_setBits hw _ _ _ h, moved]
  congr 1
  apply written_congr
  intro i hi
  rw [getLsbD_getBits hw _ h, decide_eq_true hi, Bool.true_and, bits]

theorem bits_setCell (hw : 0 < w) (mem : β → Cells w) (src dst : β) (cell src_idx : ℕ) :
    bits (Function.update mem dst
        (Function.update (mem dst) cell (getBits (mem src) src_idx w))) =
      moved (bits mem) src dst src_idx (cell * w) w := by
  have hcell : bit (Function.update (mem dst) cell (getBits (mem src) src_idx w)) =
      written (bit (mem dst)) (cell * w) w fun i => bit (mem src) (src_idx + i) := by
    apply bit_update_cell _ hw (Nat.le_refl w)
    · intro i hi
      rw [getLsbD_getBits hw _ (Nat.le_refl w), decide_eq_true hi, Bool.true_and]
    · intro j hj hge
      omega
  rw [bits_update, hcell]
  rfl

variable {mem : β → Cells w} {src dst : β}

theorem bits_moveCellsFW (hw : 0 < w) (n cell src_idx : ℕ)
    (h : src = dst → cell * w ≤ src_idx) :
    bits (moveCellsFW src dst n cell src_idx mem) =
      moved (bits mem) src dst src_idx (cell * w) (n * w) := by
  induction n generalizing cell src_idx mem with
  | zero => rw [Nat.zero_mul, moved_zero, moveCellsFW]
  | succ n ih =>
      have hnext : src = dst → (cell + 1) * w ≤ src_idx + w := by
        intro heq
        rw [Nat.add_one_mul]
        exact Nat.add_le_add_right (h heq) w
      rw [moveCellsFW, ih _ _ hnext, bits_setCell hw, Nat.add_one_mul cell, moved_moved_fw h,
        Nat.add_one_mul n, Nat.add_comm w]

theorem bits_moveBitsFW (hw : 0 < w) {src_idx dst_idx : ℕ} (length : ℕ)
    (h : src = dst → dst_idx ≤ src_idx) :
    bits (moveBitsFW mem src dst src_idx dst_idx length) =
      moved (bits mem) src dst src_idx dst_idx length := by
  have hdst := Nat.div_add_mod' dst_idx w
  have hin := Nat.mod_lt dst_idx hw
  have hrest := Nat.mod_lt (dst_idx + length) hw
  have hto := Nat.div_add_mod' (dst_idx + length) w
  rw [moveBitsFW]
  dsimp only
  split_ifs with hone hsuffix
  · exact bits_setGetBits hw mem src dst src_idx dst_idx (by omega)
  all_goals
    obtain ⟨hnext, hlast⟩ := rangeCells hw
      (show dst_idx + (w - dst_idx % w) ≤ dst_idx + length by omega)
    have hextent : dst_idx + w - dst_idx % w = (dst_idx / w + 1) * w := by omega
    have hpre : (dst_idx / w + 1) * w - dst_idx = w - dst_idx % w := by omega
    have hcells : src = dst → (dst_idx / w + 1) * w ≤ src_idx + (w - dst_idx % w) := by
      intro heq
      have := h heq
      omega
    rw [hextent, Nat.mul_div_cancel _ hw, hpre]
    generalize (dst_idx + length) / w - (dst_idx / w + 1) = n at *
  · have hsuffix : dst_idx + length - (dst_idx + length) % w =
        dst_idx + ((w - dst_idx % w) + n * w) := by
      omega
    rw [bits_setGetBits hw _ _ _ _ _ (Nat.le_of_lt hrest), bits_moveCellsFW hw _ _ _ hcells,
      bits_setGetBits hw _ _ _ _ _ (Nat.sub_le _ _), hnext, moved_moved_fw h, hsuffix,
      Nat.add_assoc, moved_moved_fw h]
    congr 1
    omega
  · rw [bits_moveCellsFW hw _ _ _ hcells, bits_setGetBits hw _ _ _ _ _ (Nat.sub_le _ _), hnext,
      moved_moved_fw h]
    congr 1
    omega

/-- The loop goes down from cell `lo + n` to the one above `lo`. -/
theorem bits_moveCellsBW (hw : 0 < w) (n lo src_idx : ℕ)
    (h : src = dst → src_idx ≤ (lo + 1) * w) :
    bits (moveCellsBW src dst n (lo + n) (src_idx + n * w) mem) =
      moved (bits mem) src dst src_idx ((lo + 1) * w) (n * w) := by
  induction n generalizing mem with
  | zero => rw [Nat.zero_mul, moved_zero, moveCellsBW]
  | succ n ih =>
      have hsrc : src_idx + (n + 1) * w - w = src_idx + n * w := by
        rw [Nat.add_one_mul]
        omega
      have hcell : (lo + (n + 1)) * w = (lo + 1) * w + n * w := by
        rw [← Nat.add_mul, Nat.add_assoc, Nat.add_comm 1]
      rw [moveCellsBW, hsrc, show lo + (n + 1) - 1 = lo + n from rfl, ih, bits_setCell hw, hcell,
        moved_moved_bw h, Nat.add_one_mul n]

theorem bits_moveBitsBW (hw : 0 < w) {src_idx dst_idx : ℕ} (length : ℕ)
    (h : src = dst → src_idx ≤ dst_idx) :
    bits (moveBitsBW mem src dst src_idx dst_idx length) =
      moved (bits mem) src dst src_idx dst_idx length := by
  have hdst := Nat.div_add_mod' dst_idx w
  have hin := Nat.mod_lt dst_idx hw
  have hrest := Nat.mod_lt (dst_idx + length) hw
  have hto := Nat.div_add_mod' (dst_idx + length) w
  have hextent : dst_idx + length - (dst_idx + length) % w = (dst_idx + length) / w * w := by omega
  rw [moveBitsBW]
  dsimp only
  rw [hextent]
  split_ifs with hone
  · exact bits_setGetBits hw mem src dst src_idx dst_idx (by omega)
  · have hcells : dst_idx / w + 1 ≤ (dst_idx + length) / w := by
      rw [Nat.succ_le_iff, Nat.div_lt_iff_lt_mul hw]
      omega
    have hmul := Nat.mul_le_mul_right w hcells
    obtain ⟨hnext, hlast⟩ := rangeCells hw
      (show dst_idx + (w - dst_idx % w) ≤ dst_idx + length by rw [Nat.add_one_mul] at hmul; omega)
    generalize dst_idx / w = lo at *
    generalize (dst_idx + length) / w = hi at *
    obtain ⟨n, rfl⟩ := Nat.exists_eq_add_of_le hcells
    have hcount : lo + 1 + n - (lo + 1) = n := by omega
    have hstop : lo + 1 + n - 1 = lo + n := by omega
    have hcount' : lo + n - lo = n := by omega
    rw [hcount] at hlast
    have hsuffix : dst_idx + length - (lo + 1 + n) * w = (dst_idx + length) % w := by omega
    have hsrc : src_idx + (length - (dst_idx + length) % w) =
        src_idx + (w - dst_idx % w) + n * w := by
      omega
    have hback : src_idx + (w - dst_idx % w) + n * w - n * w - (w - dst_idx % w) = src_idx := by
      omega
    have hsrccells : src = dst → src_idx + (w - dst_idx % w) ≤ (lo + 1) * w := by
      intro heq
      have := h heq
      omega
    have hlength : (w - dst_idx % w) + (n * w + (dst_idx + length) % w) = length := by omega
    have hmid : src = dst → src_idx + (w - dst_idx % w) ≤ dst_idx + (w - dst_idx % w) := fun heq =>
      Nat.add_le_add_right (h heq) _
    rw [hstop, hcount', hsuffix, hsrc, hback, bits_setGetBits hw _ _ _ _ _ (Nat.sub_le _ _),
      bits_moveCellsBW hw _ _ _ hsrccells, bits_setGetBits hw _ _ _ _ _ (Nat.le_of_lt hrest),
      hlast, hnext, ← Nat.add_assoc dst_idx, moved_moved_bw hmid, moved_moved_bw h, hlength]

/-- `MoveBits` is a memmove of bits. -/
theorem moveBits_spec (hw : 0 < w) (mem : β → Cells w) (src dst : β)
    (src_idx dst_idx length : ℕ) :
    let mem' := moveBits mem src dst src_idx dst_idx length
    (∀ i < length, bit (mem' dst) (dst_idx + i) = bit (mem src) (src_idx + i)) ∧
      (∀ i, i < dst_idx ∨ dst_idx + length ≤ i → bit (mem' dst) i = bit (mem dst) i) ∧
      ∀ b, b ≠ dst → mem' b = mem b := by
  intro mem'
  have hmoved : bits mem' = moved (bits mem) src dst src_idx dst_idx length := by
    change bits (moveBits mem src dst src_idx dst_idx length) = _
    rw [moveBits]
    split_ifs with hback
    · exact bits_moveBitsBW hw length fun _ => Nat.le_of_lt hback
    · exact bits_moveBitsFW hw length fun _ => Nat.le_of_not_lt hback
  have hat : ∀ b, bit (mem' b) = moved (bits mem) src dst src_idx dst_idx length b := congrFun hmoved
  refine ⟨?_, ?_, ?_⟩
  · intro i hi
    rw [hat, moved_dst hi, bits]
  · intro i hi
    rw [hat]
    rcases hi with hlt | hge
    · exact moved_of_lt hlt
    · exact moved_of_ge hge
  · intro b hb
    apply cells_ext
    intro i
    rw [hat, moved_of_ne hb, bits]

theorem moveBits_spec_overlap :
    let mem : Unit → Cells 8 := fun _ c => if c = 0 then 5#8 else 0
    bit (moveBits mem () () 0 3 20 ()) 5 = bit (mem ()) 2 :=
  (moveBits_spec (by decide) _ () () 0 3 20).1 2 (by decide)

end Moving

end Memoria.BitBuffer

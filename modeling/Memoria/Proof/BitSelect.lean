import Memoria.BitSelect
import Memoria.Proof.BitBuffer

/-!
# Select in bit buffers: the search

A search looks at positions in order. A piece of it either finds the position, or adds its count to
the total; the pieces of a search together are the search.
-/

namespace Memoria.BitBuffer

open Lib

/-- The inner loop reports the position with the rest of the rank, or the count up to it. -/
theorem selectByte_spec {bitAt : ℕ → Bool} {rank : ℕ} (n d : ℕ) {r : ℕ} (hr : r < rank) :
    selectByte bitAt rank n d r =
      report (fun i => bitAt (d + i)) n (rank - r - 1) (fun i => (some (d + i), rank))
        (fun c => (none, r + c)) := by
  induction n generalizing d r with
  | zero => rfl
  | succ n ih =>
      have hshift : (fun i => bitAt (d + (1 + i))) = fun i => bitAt (d + 1 + i) := by
        funext i
        rw [Nat.add_assoc]
      have hone : rankOf (fun i => bitAt (d + i)) 1 = (bitAt d).toNat := by
        rw [rankOf_succ]
        exact Nat.add_zero _
      rw [selectByte, Nat.add_comm n, report_add, hone, hshift]
      by_cases hfound : r + (bitAt d).toNat = rank
      · have hbit : bitAt d = true := by
          by_contra hno
          rw [Bool.eq_false_of_not_eq_true hno, Bool.toNat_false] at hfound
          omega
        obtain ⟨i, hi, hhit⟩ := report_hit (p := fun i => bitAt (d + i)) (n := 1)
          (k := rank - r - 1) (by rw [hone]; omega)
        rw [if_pos hfound, if_pos (by omega), hhit, hfound, show i = 0 by omega, Nat.add_zero]
      · have hle := Bool.toNat_le (bitAt d)
        rw [if_neg hfound, if_neg (by omega), ih _ (by omega),
          show rank - (r + (bitAt d).toNat) - 1 = rank - r - 1 - (bitAt d).toNat by omega]
        simp only [Nat.add_assoc]

/-- The rounds over the bytes are a search over the bits; the counts only pass bytes over. -/
theorem selectBytes_spec {popcAt : ℕ → ℕ} {bitAt : ℕ → ℕ → Bool} {rank : ℕ}
    (hpopc : ∀ j < 8, popcAt j = rankOf (bitAt j) 8) (n j : ℕ) (hj : j + n ≤ 8) {r : ℕ}
    (hr : r < rank) :
    selectBytes popcAt bitAt rank n j r =
      report (fun i => bitAt (j + i / 8) (i % 8)) (n * 8) (rank - r - 1)
        (fun i => some (j + i / 8, i % 8)) (fun _ => none) := by
  induction n generalizing j r with
  | zero => rw [Nat.zero_mul]; rfl
  | succ n ih =>
      have hcongr : ∀ i < 8, bitAt (j + i / 8) (i % 8) = bitAt j i := by
        intro i hi
        rw [Nat.div_eq_of_lt hi, Nat.mod_eq_of_lt hi, Nat.add_zero]
      have hbyte : rankOf (fun i => bitAt (j + i / 8) (i % 8)) 8 = popcAt j := by
        rw [hpopc j (by omega), rankOf_congr hcongr]
      have hle := rankOf_le (bitAt j) 8
      rw [← hpopc j (by omega)] at hle
      rw [selectBytes, Nat.add_one_mul, Nat.add_comm (n * 8), report_add, hbyte]
      by_cases hfound : r + popcAt j ≥ rank
      · rw [if_pos hfound, if_pos (by omega), selectByte_spec 8 0 hr]
        simp only [Nat.zero_add]
        obtain ⟨i, hi, hhit⟩ := report_hit (p := bitAt j) (n := 8) (k := rank - r - 1)
          (by rw [← hpopc j (by omega)]; omega)
        have hpair : ∀ i < 8, some (j + i / 8, i % 8) = some (j, i) := by
          intro i hi
          rw [Nat.div_eq_of_lt hi, Nat.mod_eq_of_lt hi, Nat.add_zero]
        rw [hhit, report_congr hcongr hpair (fun _ _ => rfl), hhit]
      · have hshift : ∀ i, j + (8 + i) / 8 = j + 1 + i / 8 ∧ (8 + i) % 8 = i % 8 := by
          intro i
          omega
        rw [if_neg hfound, if_neg (by omega), ih (j + 1) (by omega) (by omega),
          show rank - (r + popcAt j) - 1 = rank - r - 1 - popcAt j by omega]
        simp only [hshift]

theorem popc_eq (arg : BitVec 64) {shift i : ℕ} (hshift : shift = 8 * i) (hi : i < 8) :
    ((byteCounts64 arg >>> shift) &&& 0xFF#64).toNat = rankOf (fun d => arg.getLsbD (shift + d)) 8 := by
  have hmask : (0xFF#64).toNat = 2 ^ 8 - 1 := rfl
  rw [BitVec.toNat_and, hmask, Nat.and_two_pow_sub_one_eq_mod, BitVec.toNat_ushiftRight,
    toNat_byteCounts64, Nat.shiftRight_eq_div_pow, hshift]
  rw [show 2 ^ 8 = 256 from rfl, byteCounts_byte 8 _ i hi]
  apply rankOf_congr
  intro d _
  rw [Nat.testBit_div_two_pow, Nat.add_comm]
  rfl

theorem selectFW_eq (arg : BitVec 64) {rank : ℕ} (hrank : 0 < rank) :
    selectFW arg rank = report arg.getLsbD 64 (rank - 1) (fun i => i) (fun c => 100 + c) := by
  have hfull : byteSum64 (byteCounts64 arg) = rankOf arg.getLsbD 64 := popCnt64_eq arg
  rw [selectFW]
  dsimp only
  rw [hfull]
  by_cases hle : rankOf arg.getLsbD 64 ≥ rank
  · have hpopc : ∀ j < 8, ((byteCounts64 arg >>> (8 * j)) &&& 0xFF#64).toNat =
        rankOf (fun d => arg.getLsbD (8 * j + d)) 8 := fun j hj => popc_eq arg rfl hj
    obtain ⟨i, hi, hhit⟩ := report_hit (p := arg.getLsbD) (n := 64) (k := rank - 1) (by omega)
    rw [if_pos hle, selectBytes_spec hpopc 8 0 (by decide) hrank, Nat.sub_zero]
    simp only [Nat.zero_add, Nat.div_add_mod, hhit]
  · rw [if_neg hle, report_miss (by omega)]

theorem selectBW_eq (arg : BitVec 64) {rank : ℕ} (hrank : 0 < rank) :
    selectBW arg rank =
      report (fun i => arg.getLsbD (63 - i)) 64 (rank - 1) (fun i => 63 - i) (fun c => 100 + c) := by
  have hfull : byteSum64 (byteCounts64 arg) = rankOf (fun i => arg.getLsbD (63 - i)) 64 :=
    (popCnt64_eq arg).trans (rankOf_reverse arg.getLsbD 64).symm
  rw [selectBW]
  dsimp only
  rw [hfull]
  by_cases hle : rankOf (fun i => arg.getLsbD (63 - i)) 64 ≥ rank
  · have hpopc : ∀ j < 8, ((byteCounts64 arg >>> (56 - 8 * j)) &&& 0xFF#64).toNat =
        rankOf (fun d => arg.getLsbD (56 - 8 * j + 7 - d)) 8 := by
      intro j hj
      rw [popc_eq arg (i := 7 - j) (by omega) (by omega), ← rankOf_reverse]
      apply rankOf_congr
      intro d hd
      rw [Nat.add_sub_assoc (by omega)]
    have hplace : ∀ i < 64, 56 - 8 * (i / 8) + 7 - i % 8 = 63 - i := by
      intro i hi
      omega
    obtain ⟨i, hi, hhit⟩ := report_hit (p := fun i => arg.getLsbD (63 - i)) (n := 64)
      (k := rank - 1) (by omega)
    have hbits : ∀ i < 64, arg.getLsbD (56 - 8 * (0 + i / 8) + 7 - i % 8) = arg.getLsbD (63 - i) := by
      intro i hi
      rw [Nat.zero_add, hplace i hi]
    rw [if_pos hle, selectBytes_spec hpopc 8 0 (by decide) hrank,
      report_congr hbits (fun _ _ => rfl) (fun _ _ => rfl), Nat.sub_zero, hhit, hhit]
    dsimp only
    rw [Nat.zero_add, hplace i hi]
  · rw [if_neg hle, report_miss (by omega)]

section Pieces

variable {w n rank total : ℕ} {p : ℕ → Bool} {pos : ℕ → ℕ}

def piece (p : ℕ → Bool) (n : ℕ) (pos : ℕ → ℕ) (rank total : ℕ) : Except SelectResult ℕ :=
  report p n (rank - total - 1) (fun i => .error ⟨pos i, rank, true⟩) (fun c => .ok (total + c))

theorem piece_zero : piece p 0 pos rank total = .ok total := by
  rw [piece, report_miss (Nat.zero_le _)]
  rfl

theorem piece_bind (h : total < rank) {f : ℕ → Except SelectResult ℕ} {m : ℕ}
    (hf : ∀ total < rank, f total = piece (fun i => p (n + i)) m (fun i => pos (n + i)) rank total) :
    (piece p n pos rank total >>= f) = piece p (n + m) pos rank total := by
  have hadd := (@report_add _ (fun i => (.error ⟨pos i, rank, true⟩ : Except SelectResult ℕ))
    fun c => .ok (total + c)) p n m (rank - total - 1)
  rw [piece, piece, hadd]
  by_cases hk : rank - total - 1 < rankOf p n
  · obtain ⟨i, -, hhit⟩ := report_hit hk
    rw [if_pos hk, hhit]
    rfl
  · have hbelow : total + rankOf p n < rank := by omega
    rw [if_neg hk, report_miss (Nat.le_of_not_lt hk)]
    change f (total + rankOf p n) = _
    rw [hf _ hbelow, piece, Nat.sub_sub, Nat.sub_sub, Nat.sub_sub]
    simp only [Nat.add_assoc]
    congr 1
    omega

theorem piece_congr {q : ℕ → Bool} {pos' : ℕ → ℕ} (hp : ∀ i < n, p i = q i)
    (hpos : ∀ i < n, pos i = pos' i) : piece p n pos rank total = piece q n pos' rank total := by
  apply report_congr hp
  · intro i hi
    rw [hpos i hi]
  · intro c _
    rfl

theorem tryWord_report {place : ℕ → ℕ} (hplace : ∀ i < n, place i < 100) :
    tryWord (report p n (rank - total - 1) place (fun c => 100 + c)) pos rank total =
      piece p n (fun i => pos (place i)) rank total := by
  rw [report_map fun result => tryWord result pos rank total, piece]
  apply report_congr (fun _ _ => rfl)
  · intro i hi
    rw [tryWord, if_pos (hplace i hi)]
  · intro c _
    rw [tryWord, if_neg (by omega), Nat.add_sub_cancel_left]

variable {arg : BitVec w} {base : ℕ → ℕ} (hw : w ≤ 64) (hn : n ≤ w) (htotal : total < rank)

include hw hn htotal

/-- The low bits of a word are a piece of a forward search. -/
theorem word_fw (hbits : ∀ i < w, arg.getLsbD i = (decide (i < n) && p i))
    (hpos : ∀ i < n, base i = pos i) :
    tryWord (selectFW (arg.setWidth 64) (rank - total)) base rank total =
      piece p n pos rank total := by
  have hat : ∀ i, (arg.setWidth 64).getLsbD i = (decide (i < n) && p i) := by
    intro i
    rw [BitVec.getLsbD_setWidth]
    rcases Nat.lt_or_ge i w with hi | hi
    · rw [hbits i hi, decide_eq_true (show i < 64 by omega), Bool.true_and]
    · rw [BitVec.getLsbD_of_ge _ _ hi, Bool.and_false, decide_eq_false (show ¬ i < n by omega),
        Bool.false_and]
  rw [selectFW_eq _ (by omega), report_of_clear (m := n) (by omega)]
  · rw [tryWord_report (fun i hi => by omega)]
    apply piece_congr
    · intro i hi
      rw [hat, decide_eq_true hi, Bool.true_and]
    · exact hpos
  · intro i hge _
    rw [hat, decide_eq_false (by omega), Bool.false_and]

/-- The high bits of a word are a piece of a backward search. -/
theorem word_bw (hbits : ∀ i < w, arg.getLsbD (w - 1 - i) = (decide (i < n) && p i))
    (hpos : ∀ i < n, base (w - 1 - i) = pos i) :
    tryWord (selectBW (arg.setWidth 64) (rank - total)) base rank total =
      piece p n pos rank total := by
  have hhigh : ∀ i < 64 - w, (arg.setWidth 64).getLsbD (63 - i) = false := by
    intro i hi
    rw [BitVec.getLsbD_setWidth, BitVec.getLsbD_of_ge _ _ (by omega), Bool.and_false]
  have hplace : ∀ i, 63 - (64 - w + i) = w - 1 - i := by
    intro i
    omega
  have hat : ∀ i < w, (arg.setWidth 64).getLsbD (w - 1 - i) = (decide (i < n) && p i) := by
    intro i hi
    rw [BitVec.getLsbD_setWidth, decide_eq_true (by omega), Bool.true_and, hbits i hi]
  have hsearch := @report_of_clear_before _ w (rank - total - 1) _ (fun i => 63 - i)
    (fun c => 100 + c) _ hhigh
  rw [Nat.sub_add_cancel hw] at hsearch
  simp only [hplace] at hsearch
  rw [selectBW_eq _ (by omega), hsearch, report_of_clear hn]
  · rw [tryWord_report (fun i hi => by omega)]
    apply piece_congr
    · intro i hi
      rw [hat i (by omega), decide_eq_true hi, Bool.true_and]
    · exact hpos
  · intro i hge hlt
    rw [hat i hlt, decide_eq_false (by omega), Bool.false_and]

end Pieces

section Groups

variable {w : ℕ}

theorem getLsbD_getBitsNeg0 (buf : Cells w) {idx nbits : ℕ} (h : idx % w + nbits ≤ w) (i : ℕ) :
    (getBitsNeg0 buf idx nbits).getLsbD i = (decide (i < nbits) && (bit buf (idx + i) == false)) := by
  rw [getBitsNeg0, BitVec.getLsbD_and, BitVec.getLsbD_ushiftRight, getLsbD_makeMask (by omega),
    Bool.and_comm]
  by_cases hin : i < nbits
  · rw [bit_add buf (by omega), BitVec.getLsbD_not, decide_eq_true (show idx % w + i < w by omega)]
    simp [hin]
  · simp [hin]

/-- A group at the high end of a word, read from there down. -/
theorem getLsbD_high (buf : Cells w) {cell : BitVec w} {b : Bool} {idx nbits : ℕ}
    (hcell : ∀ j < w, cell.getLsbD j = ((buf (idx / w)).getLsbD j == b))
    (h : idx % w + nbits ≤ w) {i : ℕ} (hi : i < w) :
    ((cell <<< (w - idx % w - nbits)) &&& makeMask w (w - nbits) nbits).getLsbD (w - 1 - i) =
      (decide (i < nbits) && (bit buf (idx + nbits - 1 - i) == b)) := by
  rw [BitVec.getLsbD_and, BitVec.getLsbD_shiftLeft, getLsbD_makeMask (by omega)]
  by_cases hin : i < nbits
  · have hpos : idx + nbits - 1 - i = idx + (nbits - 1 - i) := by omega
    have hplace : w - 1 - i - (w - idx % w - nbits) = idx % w + (nbits - 1 - i) := by omega
    rw [hpos, bit_add buf (by omega), hplace, hcell _ (by omega), decide_eq_true hin,
      decide_eq_true (show w - 1 - i < w by omega),
      decide_eq_false (show ¬ w - 1 - i < w - idx % w - nbits by omega),
      decide_eq_true (show w - nbits ≤ w - 1 - i ∧ w - 1 - i < w - nbits + nbits by omega),
      Bool.not_false, Bool.true_and, Bool.true_and, Bool.and_true]
  · rw [decide_eq_false (show ¬ (w - nbits ≤ w - 1 - i ∧ w - 1 - i < w - nbits + nbits) by omega),
      decide_eq_false hin, Bool.and_false, Bool.false_and]

end Groups

theorem reportAt_piece (bitmap : Bitmap) (b : Bool) (pos : ℕ → ℕ) (n stop rank : ℕ) :
    reportAt stop (piece (fun i => bitmap (pos i) == b) n pos rank 0) =
      bitmap.selectResult b pos n stop rank := by
  rw [piece, report_map (reportAt stop), Bitmap.selectResult, select_eq_selectOf, count_eq_rankOf, report, Nat.sub_zero]
  cases selectOf (fun i => bitmap (pos i) == b) n (rank - 1) with
  | none => simp only [Option.elim_none, Nat.zero_add, reportAt]
  | some i => rfl

section Forward

variable {t : CellType} {get : Cells t.bits → ℕ → ℕ → BitVec t.bits}
  {word : BitVec t.bits → BitVec t.bits} {b : Bool} {rank : ℕ}
  (hword : ∀ cell, ∀ i < t.bits, (word cell).getLsbD i = (cell.getLsbD i == b))

include hword

theorem selectCellsFW_eq (buffer : Cells t.bits) (n cell : ℕ) {total : ℕ} (h : total < rank) :
    selectCellsFW word buffer rank n cell total =
      piece (fun i => bit buffer (cell * t.bits + i) == b) (n * t.bits) (cell * t.bits + ·)
        rank total := by
  induction n generalizing cell total with
  | zero => rw [Nat.zero_mul, piece_zero, selectCellsFW]
  | succ n ih =>
      have hone : ∀ total < rank, tryWord (selectFW ((word (buffer cell)).setWidth 64) (rank - total))
          (cell * t.bits + ·) rank total =
            piece (fun i => bit buffer (cell * t.bits + i) == b) t.bits (cell * t.bits + ·)
              rank total := by
        intro total htotal
        apply word_fw t.bits_le (Nat.le_refl _) htotal
        · intro i hi
          rw [hword _ i hi, decide_eq_true hi, Bool.true_and, bit_cell buffer cell hi]
        · intro i _
          rfl
      rw [selectCellsFW, hone total h, Nat.add_one_mul, Nat.add_comm (n * t.bits)]
      apply piece_bind h
      intro total htotal
      rw [ih (cell + 1) htotal, Nat.add_one_mul]
      simp only [Nat.add_assoc]

theorem selectRangeFW_eq
    (hget : ∀ buffer idx n, idx % t.bits + n ≤ t.bits → ∀ i < t.bits,
      (get buffer idx n).getLsbD i = (decide (i < n) && (bit buffer (idx + i) == b)))
    (buffer : Cells t.bits) {start stop : ℕ} (hrange : start ≤ stop + 2 ^ 31) (hrank : 0 < rank) :
    selectRangeFW get word buffer start stop rank =
      Bitmap.selectResult (bit buffer) b (start + ·) (stop - start) stop rank := by
  have hw := t.bits_pos
  have hmax := t.bits_le
  have hin := Nat.mod_lt start hw
  have hgroup : ∀ idx n, idx % t.bits + n ≤ t.bits → ∀ total < rank,
      tryWord (selectFW ((get buffer idx n).setWidth 64) (rank - total)) (idx + ·) rank total =
        piece (fun i => bit buffer (idx + i) == b) n (idx + ·) rank total := by
    intro idx n hidx total htotal
    exact word_fw hmax (by omega) htotal (hget buffer idx n hidx) fun _ _ => rfl
  rw [← reportAt_piece, selectRangeFW]
  dsimp only
  by_cases hone : start + (t.bits - start % t.bits) ≥ stop
  · have hlen := int32_sub64 hrange (show stop < start + 2 ^ 31 by omega)
    have hfirst := hgroup start (stop - start) (by omega) 0 hrank
    rw [Nat.sub_zero] at hfirst
    rw [if_pos hone]
    dsimp only
    rw [hlen, hfirst]
    congr 1
    apply (piece_bind (m := 0) hrank _).trans
    · rw [Nat.add_zero]
    · intro total _
      rw [piece_zero]
      rfl
  · obtain ⟨hnext, hlast⟩ := rangeCells hw (show start + (t.bits - start % t.bits) ≤ stop by omega)
    have hpre := int32_of_lt (show t.bits - start % t.bits < 2 ^ 31 by omega)
    have hfirst := hgroup start (t.bits - start % t.bits) (by omega) 0 hrank
    rw [Nat.sub_zero] at hfirst
    rw [if_neg hone]
    dsimp only
    rw [hpre, hfirst, ← hnext, Nat.mul_div_cancel _ hw]
    have hlen : stop - start = (t.bits - start % t.bits) +
        ((stop / t.bits - (start / t.bits + 1)) * t.bits + stop % t.bits) := by
      have := Nat.div_add_mod' stop t.bits
      omega
    rw [hlen]
    congr 1
    apply piece_bind hrank
    intro total htotal
    rw [selectCellsFW_eq hword _ _ _ htotal, hnext]
    simp only [Nat.add_assoc]
    apply piece_bind htotal
    intro total htotal
    by_cases hsuffix : stop % t.bits > 0
    · rw [if_pos hsuffix, hgroup _ _ _ _ htotal, hlast]
      · simp only [Nat.add_assoc]
      · rw [Nat.mul_mod_left, Nat.zero_add]
        exact Nat.le_of_lt (Nat.mod_lt stop hw)
    · rw [if_neg hsuffix, Nat.eq_zero_of_not_pos hsuffix, piece_zero]

end Forward

section Backward

variable {t : CellType} {get : Cells t.bits → ℕ → ℕ → BitVec t.bits}
  {word : BitVec t.bits → BitVec t.bits} {b : Bool} {rank : ℕ}
  (hword : ∀ cell, ∀ i < t.bits, (word cell).getLsbD i = (cell.getLsbD i == b))

include hword

/-- The loop goes down from cell `lo + n` to the one above `lo`. -/
theorem selectCellsBW_eq (buffer : Cells t.bits) (n lo : ℕ) {total : ℕ} (h : total < rank) :
    selectCellsBW word buffer rank n (lo + n) total =
      piece (fun i => bit buffer ((lo + n + 1) * t.bits - 1 - i) == b) (n * t.bits)
        (fun i => (lo + n + 1) * t.bits - 1 - i) rank total := by
  induction n generalizing total with
  | zero => rw [Nat.zero_mul, piece_zero, selectCellsBW]
  | succ n ih =>
      have hone : ∀ total < rank,
          tryWord (selectBW ((word (buffer (lo + (n + 1)))).setWidth 64) (rank - total))
            ((lo + (n + 1)) * t.bits + ·) rank total =
          piece (fun i => bit buffer ((lo + (n + 1) + 1) * t.bits - 1 - i) == b) t.bits
            (fun i => (lo + (n + 1) + 1) * t.bits - 1 - i) rank total := by
        intro total htotal
        have hplace : ∀ i < t.bits, (lo + (n + 1) + 1) * t.bits - 1 - i =
            (lo + (n + 1)) * t.bits + (t.bits - 1 - i) := by
          intro i hi
          rw [Nat.add_one_mul]
          omega
        apply word_bw t.bits_le (Nat.le_refl _) htotal
        · intro i hi
          rw [hword _ _ (by omega), decide_eq_true hi, Bool.true_and, hplace i hi,
            bit_cell buffer _ (by omega)]
        · intro i hi
          exact (hplace i hi).symm
      have hshift : ∀ i, (lo + (n + 1) + 1) * t.bits - 1 - (t.bits + i) =
          (lo + n + 1) * t.bits - 1 - i := by
        intro i
        rw [Nat.add_one_mul, ← Nat.add_assoc]
        omega
      rw [selectCellsBW, hone total h, Nat.add_one_mul n, Nat.add_comm (n * t.bits)]
      apply piece_bind h
      intro total htotal
      rw [show lo + (n + 1) - 1 = lo + n from rfl, ih htotal]
      simp only [hshift]

theorem selectRangeBW_eq
    (hget : ∀ buffer idx n, idx % t.bits + n ≤ t.bits → ∀ i < t.bits,
      (get buffer idx n).getLsbD (t.bits - 1 - i) =
        (decide (i < n) && (bit buffer (idx + n - 1 - i) == b)))
    (buffer : Cells t.bits) {start stop : ℕ} (hrange : stop ≤ start + 2 ^ 31) (hrank : 0 < rank) :
    selectRangeBW get word buffer start stop rank =
      Bitmap.selectResult (bit buffer) b (fun i => start - 1 - i) (start - stop) stop rank := by
  have hw := t.bits_pos
  have hmax := t.bits_le
  have hstart := Nat.div_add_mod' start t.bits
  have hstop := Nat.div_add_mod' stop t.bits
  have hin := Nat.mod_lt start hw
  have hin' := Nat.mod_lt stop hw
  have hgroup : ∀ idx n, idx % t.bits + n ≤ t.bits → ∀ base : ℕ → ℕ,
      (∀ i < n, base (t.bits - 1 - i) = idx + n - 1 - i) → ∀ total < rank,
      tryWord (selectBW ((get buffer idx n).setWidth 64) (rank - total)) base rank total =
        piece (fun i => bit buffer (idx + n - 1 - i) == b) n (fun i => idx + n - 1 - i)
          rank total := by
    intro idx n hidx base hbase total htotal
    exact word_bw hmax (by omega) htotal (hget buffer idx n hidx) hbase
  rw [← reportAt_piece, selectRangeBW]
  dsimp only
  by_cases hdiff : sub64 start stop > 0
  · rw [if_pos hdiff]
    by_cases hone : start - start % t.bits ≤ stop
    · rw [if_pos hone]
      dsimp only
      have hfirst : tryWord (selectBW ((get buffer (sub64 start (sub64 start stop))
            (start - stop)).setWidth 64) rank)
          (fun result => start + result - t.bits) rank 0 =
            piece (fun i => bit buffer (start - 1 - i) == b) (start - stop)
              (fun i => start - 1 - i) rank 0 := by
        rcases Nat.lt_or_ge start stop with hlt | hle
        · have hempty := hgroup (sub64 start (sub64 start stop)) 0
            (Nat.le_of_lt (Nat.mod_lt _ hw))
            (fun result => start + result - t.bits) (fun i hi => absurd hi (Nat.not_lt_zero i)) 0
            hrank
          rw [Nat.sub_zero, piece_zero] at hempty
          rw [Nat.sub_eq_zero_of_le (Nat.le_of_lt hlt), hempty, piece_zero]
        · have hsub : sub64 start stop = start - stop := if_pos hle
          have hidx : sub64 start (start - stop) = stop := by
            rw [sub64, if_pos (by omega)]
            omega
          have hmod : stop % t.bits + (start - stop) = start % t.bits := by
            have hcell : stop / t.bits = start / t.bits := by
              apply Nat.le_antisymm (Nat.div_le_div_right hle)
              rw [Nat.le_div_iff_mul_le hw]
              omega
            rw [hcell] at hstop
            omega
          have hsum : stop + (start - stop) = start := by omega
          have hpiece := hgroup stop (start - stop) (by omega)
            (fun result => start + result - t.bits) (fun i hi => by omega) 0 hrank
          rw [Nat.sub_zero, hsum] at hpiece
          rw [hsub, hidx, hpiece]
      rw [if_pos hdiff, int32_sub64 hrange (by omega), hfirst]
      congr 1
      apply (piece_bind (m := 0) hrank _).trans
      · rw [Nat.add_zero]
      · intro total _
        rw [piece_zero]
        rfl
    · have hlohi : stop / t.bits < start / t.bits := by
        rw [Nat.div_lt_iff_lt_mul hw]
        omega
      rw [if_neg hone]
      dsimp only
      have hextent : start - start % t.bits = start / t.bits * t.bits := by omega
      rw [hextent, Nat.mul_div_cancel _ hw]
      generalize start / t.bits = hi at *
      generalize stop / t.bits = lo at *
      obtain ⟨n, rfl⟩ := Nat.exists_eq_add_of_lt hlohi
      have hcells : (lo + n + 1) * t.bits = lo * t.bits + n * t.bits + t.bits := by
        rw [Nat.add_one_mul, Nat.add_mul]
      have hpre := int32_of_lt (show start % t.bits < 2 ^ 31 by omega)
      have hidx : sub64 start (start % t.bits) = (lo + n + 1) * t.bits := by
        rw [sub64, if_pos (Nat.mod_le start t.bits)]
        omega
      have hfirst : (if start % t.bits > 0 then
            tryWord (selectBW ((get buffer (sub64 start (start % t.bits))
              (int32 (start % t.bits))).setWidth 64) rank)
              (fun result => start + result - t.bits) rank 0
          else .ok 0) =
            piece (fun i => bit buffer (start - 1 - i) == b) (start % t.bits)
              (fun i => start - 1 - i) rank 0 := by
        by_cases hpos : start % t.bits > 0
        · have hpiece := hgroup ((lo + n + 1) * t.bits) (start % t.bits)
            (by rw [Nat.mul_mod_left]; omega) (fun result => start + result - t.bits)
            (fun i hi => by omega) 0 hrank
          rw [Nat.sub_zero, hstart] at hpiece
          rw [if_pos hpos, hidx, hpre, hpiece]
        · rw [if_neg hpos, Nat.eq_zero_of_not_pos hpos, piece_zero]
      have hlen : start - stop = start % t.bits + (n * t.bits + (t.bits - stop % t.bits)) := by
        omega
      rw [hfirst, hlen, show lo + n + 1 - 1 = lo + n from rfl, Nat.add_sub_cancel_left]
      congr 1
      apply piece_bind hrank
      intro total htotal
      have hbelow : ∀ i, start - 1 - (start % t.bits + i) = (lo + n + 1) * t.bits - 1 - i := by
        intro i
        omega
      rw [selectCellsBW_eq hword _ _ _ htotal]
      simp only [hbelow]
      apply piece_bind htotal
      intro total htotal
      have hlast : ∀ i, (lo + n + 1) * t.bits - 1 - (n * t.bits + i) =
          stop + (t.bits - stop % t.bits) - 1 - i := by
        intro i
        omega
      rw [if_pos (by omega), hgroup _ _ (by omega) _ (fun i hi => by omega) _ htotal]
      simp only [hlast]
  · have heq : start = stop := by
      rw [sub64] at hdiff
      split_ifs at hdiff <;> omega
    rw [if_neg hdiff, if_pos hrank, heq, Nat.sub_self, piece_zero, reportAt]

end Backward

/-- The four functions are searches of the range in their direction. A range that ends on the wrong
side of its start is empty, as far as its length is an `int32_t`. -/
theorem select_spec {t : CellType} (buffer : Cells t.bits) (start stop : ℕ) {rank : ℕ}
    (hrank : 0 < rank) :
    (start ≤ stop + 2 ^ 31 →
      select1FW buffer start stop rank =
        Bitmap.selectResult (bit buffer) true (start + ·) (stop - start) stop rank ∧
      select0FW buffer start stop rank =
        Bitmap.selectResult (bit buffer) false (start + ·) (stop - start) stop rank) ∧
    (stop ≤ start + 2 ^ 31 →
      select1BW buffer start stop rank =
        Bitmap.selectResult (bit buffer) true (start - 1 - ·) (start - stop) stop rank ∧
      select0BW buffer start stop rank =
        Bitmap.selectResult (bit buffer) false (start - 1 - ·) (start - stop) stop rank) := by
  have hone : ∀ cell : BitVec t.bits, ∀ i < t.bits,
      cell.getLsbD i = (cell.getLsbD i == true) := by
    intro cell i _
    exact (beq_true _).symm
  have hzero : ∀ cell : BitVec t.bits, ∀ i < t.bits,
      (~~~cell).getLsbD i = (cell.getLsbD i == false) := by
    intro cell i hi
    rw [BitVec.getLsbD_not, decide_eq_true hi, Bool.true_and, beq_false]
  refine ⟨fun hrange => ⟨?_, ?_⟩, fun hrange => ⟨?_, ?_⟩⟩
  · apply selectRangeFW_eq hone _ buffer hrange hrank
    intro buffer idx n h i _
    rw [getLsbD_getBits0 buffer h, beq_true]
  · apply selectRangeFW_eq hzero _ buffer hrange hrank
    intro buffer idx n h i _
    exact getLsbD_getBitsNeg0 buffer h i
  · apply selectRangeBW_eq hone _ buffer hrange hrank
    intro buffer idx n h i hi
    exact getLsbD_high buffer (fun j hj => hone _ j hj) h hi
  · apply selectRangeBW_eq hzero _ buffer hrange hrank
    intro buffer idx n h i hi
    exact getLsbD_high buffer (fun j hj => hzero _ j hj) h hi

theorem select_spec_third :
    @select0BW .u32 (fun _ => 0x9#32) 40 3 3 =
      Bitmap.selectResult (@bit 32 fun _ => 0x9#32) false (40 - 1 - ·) (40 - 3) 3 3 :=
  ((@select_spec .u32 (fun _ => 0x9#32) 40 3 3 (by decide)).2 (by decide)).2

example : @select0BW .u32 (fun _ => 0x9#32) 40 3 3 = ⟨37, 3, true⟩ := by decide +kernel

end Memoria.BitBuffer

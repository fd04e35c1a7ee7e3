import Mathlib.Data.BitVec
import Mathlib.Logic.Function.Basic

/-!
# Bits in cells

An array of cells of `w` bits is read as one sequence of bits, the lowest bit of a cell first. An
update of a cell is described by the bits it leaves. Two operations on sequences go with it:
overwriting a range, and moving a range between the sequences of a memory, where a long move is a
row of short ones.
-/

namespace Memoria.Lib

section Sequences

variable {α β : Type}

def written (seq : ℕ → α) (idx n : ℕ) (vals : ℕ → α) : ℕ → α := fun i =>
  if idx ≤ i ∧ i < idx + n then vals (i - idx) else seq i

theorem written_of_mem {seq vals : ℕ → α} {idx n i : ℕ} (h : i < n) :
    written seq idx n vals (idx + i) = vals i := by
  rw [written, if_pos (by omega), Nat.add_sub_cancel_left]

theorem written_of_lt {seq vals : ℕ → α} {idx n i : ℕ} (h : i < idx) :
    written seq idx n vals i = seq i :=
  if_neg (by omega)

theorem written_of_ge {seq vals : ℕ → α} {idx n i : ℕ} (h : idx + n ≤ i) :
    written seq idx n vals i = seq i :=
  if_neg (by omega)

theorem written_zero (seq vals : ℕ → α) (idx : ℕ) : written seq idx 0 vals = seq := by
  funext i
  exact if_neg (by omega)

theorem update_eq_written (seq : ℕ → α) (idx : ℕ) (val : α) :
    Function.update seq idx val = written seq idx 1 fun _ => val := by
  funext i
  rw [Function.update_apply, written]
  apply if_congr _ rfl rfl
  omega

theorem written_congr {seq vals vals' : ℕ → α} {idx n : ℕ} (h : ∀ i < n, vals i = vals' i) :
    written seq idx n vals = written seq idx n vals' := by
  funext i
  simp only [written]
  split_ifs with hi
  · exact h (i - idx) (by omega)
  · rfl

/-- Two adjacent ranges are one. -/
theorem written_written (seq vals : ℕ → α) (idx m n : ℕ) :
    written (written seq idx m vals) (idx + m) n (fun i => vals (m + i)) =
      written seq idx (m + n) vals := by
  funext i
  simp only [written]
  split_ifs <;> first | rfl | (congr 1; omega)

/-- The same, when the first range is written last. -/
theorem written_front (seq vals : ℕ → α) (idx m n : ℕ) :
    written (written seq (idx + m) n (fun i => vals (m + i))) idx m vals =
      written seq idx (m + n) vals := by
  funext i
  simp only [written]
  split_ifs <;> first | rfl | (congr 1; omega)

theorem foldl_update (seq vals : ℕ → α) (idx n : ℕ) :
    (List.range n).foldl (fun seq c => Function.update seq (idx + c) (vals c)) seq =
      written seq idx n vals := by
  induction n with
  | zero => rw [written_zero]; rfl
  | succ n ih =>
      rw [List.range_succ, List.foldl_append, ih, List.foldl_cons, List.foldl_nil,
        update_eq_written, ← written_written seq vals idx n 1]
      apply written_congr
      intro i hi
      rw [Nat.lt_one_iff.mp hi, Nat.add_zero]

def leading (p : ℕ → Bool) : ℕ → ℕ
  | 0 => 0
  | n + 1 => if p 0 then leading (fun i => p (i + 1)) n + 1 else 0

theorem leading_eq_iff {p : ℕ → Bool} {n k : ℕ} :
    leading p n = k ↔ k ≤ n ∧ (∀ i < k, p i = true) ∧ (k < n → p k = false) := by
  induction n generalizing p k with
  | zero =>
      rw [leading]
      constructor
      · rintro rfl
        exact ⟨Nat.le_refl 0, fun i hi => absurd hi (Nat.not_lt_zero i), fun h => absurd h (by decide)⟩
      · intro h
        omega
  | succ n ih =>
      rw [leading]
      split_ifs with h0
      · constructor
        · rintro rfl
          obtain ⟨hle, hall, hstop⟩ := (ih (p := fun i => p (i + 1))).mp rfl
          refine ⟨by omega, ?_, fun h => hstop (by omega)⟩
          intro i hi
          cases i with
          | zero => exact h0
          | succ i => exact hall i (by omega)
        · rintro ⟨hle, hall, hstop⟩
          cases k with
          | zero =>
              rw [hstop (Nat.succ_pos n)] at h0
              cases h0
          | succ k =>
              congr 1
              rw [ih]
              exact ⟨by omega, fun i hi => hall (i + 1) (by omega), fun h => hstop (by omega)⟩
      · constructor
        · rintro rfl
          exact ⟨Nat.zero_le _, fun i hi => absurd hi (Nat.not_lt_zero i),
            fun _ => Bool.eq_false_of_not_eq_true h0⟩
        · rintro ⟨hle, hall, hstop⟩
          by_contra hk
          exact h0 (hall 0 (by omega))

theorem leading_le (p : ℕ → Bool) (n : ℕ) : leading p n ≤ n :=
  (leading_eq_iff.mp rfl).1

theorem leading_congr {p q : ℕ → Bool} {n : ℕ} (h : ∀ i < n, p i = q i) :
    leading p n = leading q n := by
  obtain ⟨hle, hall, hstop⟩ := leading_eq_iff.mp (rfl : leading q n = _)
  rw [leading_eq_iff]
  refine ⟨hle, ?_, ?_⟩
  · intro i hi
    rw [h i (by omega), hall i hi]
  · intro hlt
    rw [h _ hlt, hstop hlt]

theorem leading_eq_self_iff {p : ℕ → Bool} {n : ℕ} : leading p n = n ↔ ∀ i < n, p i = true := by
  rw [leading_eq_iff]
  exact ⟨fun h => h.2.1, fun h => ⟨Nat.le_refl n, h, fun hlt => absurd hlt (Nat.lt_irrefl n)⟩⟩

theorem leading_zero_of {p : ℕ → Bool} {n : ℕ} (h : p 0 = false) : leading p n = 0 := by
  rw [leading_eq_iff]
  exact ⟨Nat.zero_le n, fun i hi => absurd hi (Nat.not_lt_zero i), fun _ => h⟩

theorem leading_eq_zero_iff {p : ℕ → Bool} {n : ℕ} (hn : 0 < n) :
    leading p n = 0 ↔ p 0 = false :=
  ⟨fun h => (leading_eq_iff.mp h).2.2 hn, leading_zero_of⟩

theorem leading_add (p : ℕ → Bool) (m n : ℕ) :
    leading p (m + n) =
      if leading p m = m then m + leading (fun i => p (m + i)) n else leading p m := by
  rw [leading_eq_iff]
  split_ifs with hm
  · rw [leading_eq_self_iff] at hm
    obtain ⟨hle, hall, hstop⟩ := leading_eq_iff.mp (rfl : leading (fun i => p (m + i)) n = _)
    refine ⟨by omega, ?_, fun h => hstop (by omega)⟩
    intro i hi
    rcases Nat.lt_or_ge i m with hlt | hge
    · exact hm i hlt
    · obtain ⟨j, rfl⟩ := Nat.exists_eq_add_of_le hge
      exact hall j (by omega)
  · obtain ⟨hle, hall, hstop⟩ := leading_eq_iff.mp (rfl : leading p m = _)
    exact ⟨by omega, hall, fun _ => hstop (by omega)⟩

/-- What comes after a position that stops the run does not count. -/
theorem leading_of_stop {p : ℕ → Bool} {m n : ℕ} (hm : m < n) (h : p m = false) :
    leading p n = leading p m := by
  obtain ⟨k, rfl⟩ := Nat.exists_eq_add_of_lt hm
  have hzero : leading (fun i => p (m + i)) (k + 1) = 0 := leading_zero_of h
  rw [Nat.add_assoc, leading_add, hzero]
  split_ifs with hall
  · rw [hall, Nat.add_zero]
  · rfl

variable [DecidableEq β]

/-- The memory after `n` elements of the sequence `src` from `src_idx` on are in the sequence `dst`
from `dst_idx` on. -/
def moved (mem : β → ℕ → α) (src dst : β) (src_idx dst_idx n : ℕ) : β → ℕ → α :=
  Function.update mem dst (written (mem dst) dst_idx n fun i => mem src (src_idx + i))

variable {mem : β → ℕ → α} {src dst : β} {src_idx dst_idx m n : ℕ}

theorem moved_dst {i : ℕ} (h : i < n) :
    moved mem src dst src_idx dst_idx n dst (dst_idx + i) = mem src (src_idx + i) := by
  rw [moved, Function.update_self, written_of_mem h]

theorem moved_of_lt {b : β} {i : ℕ} (h : i < dst_idx) :
    moved mem src dst src_idx dst_idx n b i = mem b i := by
  by_cases hb : b = dst
  · rw [moved, hb, Function.update_self, written_of_lt h]
  · rw [moved, Function.update_of_ne hb]

theorem moved_of_ge {b : β} {i : ℕ} (h : dst_idx + n ≤ i) :
    moved mem src dst src_idx dst_idx n b i = mem b i := by
  by_cases hb : b = dst
  · rw [moved, hb, Function.update_self, written_of_ge h]
  · rw [moved, Function.update_of_ne hb]

theorem moved_of_ne {b : β} (h : b ≠ dst) :
    moved mem src dst src_idx dst_idx n b = mem b :=
  Function.update_of_ne h _ _

/-- The lower part first: the source ahead of the destination is still as it was. -/
theorem moved_moved_fw (h : src = dst → dst_idx ≤ src_idx) :
    moved (moved mem src dst src_idx dst_idx m) src dst (src_idx + m) (dst_idx + m) n =
      moved mem src dst src_idx dst_idx (m + n) := by
  have hsrc : ∀ i, moved mem src dst src_idx dst_idx m src (src_idx + m + i) =
      mem src (src_idx + (m + i)) := by
    intro i
    rw [Nat.add_assoc]
    by_cases heq : src = dst
    · exact moved_of_ge (by have := h heq; omega)
    · rw [moved_of_ne heq]
  rw [moved]
  simp only [hsrc]
  rw [moved, Function.update_self, Function.update_idem,
    written_written _ (fun i => mem src (src_idx + i))]
  rfl

/-- The higher part first: the source below the destination is still as it was. -/
theorem moved_moved_bw (h : src = dst → src_idx ≤ dst_idx) :
    moved (moved mem src dst (src_idx + m) (dst_idx + m) n) src dst src_idx dst_idx m =
      moved mem src dst src_idx dst_idx (m + n) := by
  funext b i
  by_cases hb : b = dst
  · subst hb
    rcases Nat.lt_or_ge i dst_idx with hlt | hge
    · rw [moved_of_lt hlt, moved_of_lt (by omega), moved_of_lt hlt]
    obtain ⟨k, rfl⟩ := Nat.exists_eq_add_of_le hge
    rcases Nat.lt_or_ge k m with hk | hk
    · have hsrc : moved mem src b (src_idx + m) (dst_idx + m) n src (src_idx + k) =
          mem src (src_idx + k) := by
        by_cases heq : src = b
        · exact moved_of_lt (by have := h heq; omega)
        · rw [moved_of_ne heq]
      rw [moved_dst hk, moved_dst (by omega), hsrc]
    · obtain ⟨j, rfl⟩ := Nat.exists_eq_add_of_le hk
      rw [moved_of_ge (by omega), ← Nat.add_assoc]
      rcases Nat.lt_or_ge j n with hj | hj
      · rw [moved_dst hj, Nat.add_assoc dst_idx, moved_dst (by omega), Nat.add_assoc]
      · rw [moved_of_ge (by omega), moved_of_ge (by omega)]
  · rw [moved_of_ne hb, moved_of_ne hb, moved_of_ne hb]

theorem moved_zero : moved mem src dst src_idx dst_idx 0 = mem := by
  rw [moved, written_zero, Function.update_eq_self]

end Sequences

abbrev Cells (w : ℕ) := ℕ → BitVec w

variable {w : ℕ}

def bit (buf : Cells w) (i : ℕ) : Bool := (buf (i / w)).getLsbD (i % w)

theorem bit_cell (buf : Cells w) (c : ℕ) {j : ℕ} (hj : j < w) :
    bit buf (c * w + j) = (buf c).getLsbD j := by
  rw [bit, Nat.add_comm, Nat.add_mul_div_right _ _ (Nat.zero_lt_of_lt hj),
    Nat.add_mul_mod_self_right, Nat.div_eq_of_lt hj, Nat.mod_eq_of_lt hj, Nat.zero_add]

/-- The bit `d` places above bit `idx`, in the same cell. -/
theorem bit_add (buf : Cells w) {idx d : ℕ} (h : idx % w + d < w) :
    bit buf (idx + d) = (buf (idx / w)).getLsbD (idx % w + d) := by
  rw [← bit_cell buf (idx / w) h]
  congr 1
  have := Nat.div_add_mod' idx w
  omega

theorem bit_update (buf : Cells w) (c : ℕ) (v : BitVec w) (i : ℕ) :
    bit (Function.update buf c v) i = if i / w = c then v.getLsbD (i % w) else bit buf i := by
  simp only [bit, Function.update_apply]
  split_ifs <;> rfl

theorem cells_ext {buf buf' : Cells w} (h : ∀ i, bit buf i = bit buf' i) : buf = buf' := by
  funext c
  apply BitVec.eq_of_getLsbD_eq
  intro j hj
  rw [← bit_cell buf c hj, h, bit_cell buf' c hj]

/-- The positions of one cell. -/
theorem div_eq_iff_mem (hw : 0 < w) {i c : ℕ} : i / w = c ↔ c * w ≤ i ∧ i < c * w + w := by
  rw [Nat.div_eq_iff hw]
  constructor
  · intro h
    omega
  · intro h
    omega

/-- An update of a cell that keeps what lies outside `n` of its bits writes these. -/
theorem bit_update_written (buf : Cells w) {idx n : ℕ} {v : BitVec w} {vals : ℕ → Bool}
    (hn : idx % w + n ≤ w)
    (hin : ∀ i < n, v.getLsbD (idx % w + i) = vals i)
    (hout : ∀ j < w, j < idx % w ∨ idx % w + n ≤ j → v.getLsbD j = (buf (idx / w)).getLsbD j) :
    bit (Function.update buf (idx / w) v) = written (bit buf) idx n vals := by
  funext i
  have hidx := Nat.div_add_mod' idx w
  rw [bit_update]
  by_cases hcell : i / w = idx / w
  · have hi := Nat.div_add_mod' i w
    rw [if_pos hcell, written]
    rw [hcell] at hi
    split_ifs with hmem
    · rw [← hin (i - idx) (by omega)]
      congr 1
      omega
    · rcases Nat.eq_zero_or_pos w with hw | hw
      · subst hw
        simp only [bit, Nat.div_zero, Nat.mod_zero, BitVec.getLsbD_of_ge _ _ (Nat.zero_le _)]
      · rw [hout (i % w) (Nat.mod_lt i hw) (by omega), bit, hcell]
  · rw [if_neg hcell, written]
    split_ifs with hmem
    · obtain ⟨d, rfl⟩ := Nat.exists_eq_add_of_le hmem.1
      have hw : 0 < w := by omega
      refine absurd ?_ hcell
      rw [div_eq_iff_mem hw]
      omega
    · rfl

/-- The same for the low bits of cell `c`. -/
theorem bit_update_cell (buf : Cells w) {c n : ℕ} {v : BitVec w} {vals : ℕ → Bool} (hw : 0 < w)
    (hn : n ≤ w) (hin : ∀ i < n, v.getLsbD i = vals i)
    (hout : ∀ j < w, n ≤ j → v.getLsbD j = (buf c).getLsbD j) :
    bit (Function.update buf c v) = written (bit buf) (c * w) n vals := by
  have hover := @bit_update_written w buf (c * w) n v vals
  rw [Nat.mul_div_cancel c hw, Nat.mul_mod_left, Nat.zero_add] at hover
  apply hover hn
  · intro i hi
    rw [Nat.zero_add]
    exact hin i hi
  · intro j hj hge
    exact hout j hj (by omega)

end Memoria.Lib

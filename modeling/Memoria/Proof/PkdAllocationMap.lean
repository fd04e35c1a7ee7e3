import Memoria.Lib.Run
import Memoria.PkdAllocationMap

/-!
# When the levels of an allocation map agree

`set_bits` keeps every level the disjunction of the one below, apart from a call for no bits at an
index that is not aligned. The loops that rebuild the upper levels take the words of a level as they
are instead of gathering their pairs of bits, so they are right only on the bitmaps that `Gathers`
describes, and `RebuildOk` is exactly the condition for them.
-/

namespace Memoria

open Lib

theorem divUp_divUp_two (value k : ℕ) : divUp (divUp value (2 ^ k)) 2 = divUp value (2 ^ (k + 1)) := by
  have hpos : 0 < 2 ^ k := Nat.two_pow_pos k
  rw [divUp_eq hpos, divUp_eq (by decide), divUp_eq (Nat.two_pow_pos _), Nat.pow_succ,
    ← Nat.div_div_eq_div_mul]
  have hadd : value + (2 ^ k * 2 - 1) = (value + (2 ^ k - 1)) + 2 ^ k := by omega
  rw [hadd, Nat.add_div_right _ hpos]

@[simp] theorem divUp_one (value : ℕ) : divUp value 1 = value := by
  simp [divUp, Nat.mod_one]

namespace Bitmap

theorem getLsbD_atom (bitmap : Bitmap) (k : ℕ) {j : ℕ} (hj : j < 64) :
    (bitmap.atom k).getLsbD j = bitmap (64 * k + j) := by
  rw [atom, BitVec.getLsbD_setWidth, BitVec.getLsbD_ofBoolListLE]
  simp [hj]

end Bitmap

namespace PkdAllocationMap

open Bitmap

/-- What the word loop writes at bit `i` of the level above. -/
theorem getLsbD_orAtom (src : Bitmap) (i : ℕ) :
    (src.atom (2 * (i / 64)) ||| src.atom (2 * (i / 64) + 1) <<< 32).getLsbD (i % 64) =
      (src (128 * (i / 64) + i % 64) ||
        (decide (32 ≤ i % 64) && src (128 * (i / 64) + 32 + i % 64))) := by
  have hlt : i % 64 < 64 := Nat.mod_lt i (by decide)
  have hleft : 64 * (2 * (i / 64)) + i % 64 = 128 * (i / 64) + i % 64 := by omega
  rw [BitVec.getLsbD_or, BitVec.getLsbD_shiftLeft, getLsbD_atom _ _ hlt, hleft]
  by_cases hhalf : 32 ≤ i % 64
  · have hright : 64 * (2 * (i / 64) + 1) + (i % 64 - 32) = 128 * (i / 64) + 32 + i % 64 := by omega
    have hnot : ¬ i % 64 < 32 := by omega
    rw [getLsbD_atom _ _ (by omega), hright]
    simp [hlt, hhalf, hnot]
  · have hless : i % 64 < 32 := by omega
    simp [hhalf, hless]

theorem orAtoms_apply (src tgt : Bitmap) (atoms i : ℕ) :
    orAtoms src tgt atoms i =
      if i / 64 < divUp atoms 2 then
        (src (128 * (i / 64) + i % 64) ||
          (decide (32 ≤ i % 64) && src (128 * (i / 64) + 32 + i % 64)))
      else tgt i := by
  unfold orAtoms
  generalize divUp atoms 2 = n
  induction n with
  | zero => simp
  | succ n ih =>
      rw [List.range_succ, List.foldl_concat, setAtom, ih]
      by_cases heq : i / 64 = n
      · subst heq
        rw [if_pos rfl, if_pos (Nat.lt_succ_self _)]
        exact getLsbD_orAtom src i
      · have hiff : i / 64 < n + 1 ↔ i / 64 < n := by omega
        simp only [if_neg heq, hiff]

/-- The word loop is right about a level exactly if the level gathers. -/
theorem orAtoms_up_iff {src bitmap old : Bitmap} {size : ℕ} (hsame : ∀ i < size, src i = bitmap i) :
    (∀ i < size / 2, orAtoms src old (size / 64) i = up src i) ↔ Gathers bitmap old size := by
  unfold Gathers
  refine forall₂_congr fun i hi => ?_
  have hup : up src i = up bitmap i := by
    simp only [up, hsame (2 * i) (by omega), hsame (2 * i + 1) (by omega)]
  have hleft : src (128 * (i / 64) + i % 64) = bitmap (128 * (i / 64) + i % 64) :=
    hsame _ (by omega)
  have hright : (decide (32 ≤ i % 64) && src (128 * (i / 64) + 32 + i % 64)) =
      (decide (32 ≤ i % 64) && bitmap (128 * (i / 64) + 32 + i % 64)) := by
    by_cases hhalf : 32 ≤ i % 64
    · rw [hsame _ (by omega)]
    · simp [hhalf]
  rw [orAtoms_apply, hup, hleft, hright]
  split <;> exact Iff.rfl

section Rebuild

variable {symbols : ℕ → Bitmap} {size : ℕ}

theorem bitmapLevelSize_eq (size level : ℕ) : bitmapLevelSize size level = size / 2 ^ level :=
  Nat.shiftRight_eq_div_pow size level

theorem bitmapLevelSize_succ (size level : ℕ) :
    bitmapLevelSize size (level + 1) = bitmapLevelSize size level / 2 := by
  rw [bitmapLevelSize_eq, bitmapLevelSize_eq, Nat.pow_succ, Nat.div_div_eq_div_mul]

/-- A bit of a level stands for `2 ^ k` bits of the level `k` below it, without remainder. -/
theorem bitmapLevelSize_span (h : 512 ∣ size) {level k : ℕ} (hlevel : level + k ≤ Indexes) :
    2 ^ k * bitmapLevelSize size (level + k) = bitmapLevelSize size level := by
  obtain ⟨n, rfl⟩ := (Nat.pow_dvd_pow 2 (show level + k ≤ 9 from hlevel)).trans h
  rw [bitmapLevelSize_eq, bitmapLevelSize_eq, Nat.mul_div_cancel_left _ (Nat.two_pow_pos _),
    Nat.pow_add 2 level k, Nat.mul_assoc, Nat.mul_div_cancel_left _ (Nat.two_pow_pos _)]

theorem rebuildLoop_of_le (n c size : ℕ) (symbols : ℕ → Bitmap) {l : ℕ} (hl : l ≤ c) :
    rebuildLoop n c size symbols l = symbols l := by
  induction n generalizing c size symbols with
  | zero => rfl
  | succ n ih =>
      rw [rebuildLoop, ih _ _ _ (by omega), Function.update_of_ne (by omega)]

/-- Each level that is rebuilt is read from the level below as rebuilt. -/
theorem rebuildLoop_succ (n c size : ℕ) (symbols : ℕ → Bitmap) {k : ℕ} (hk : k < n) :
    rebuildLoop n c (bitmapLevelSize size c) symbols (c + k + 1) =
      orAtoms (rebuildLoop n c (bitmapLevelSize size c) symbols (c + k)) (symbols (c + k + 1))
        (bitmapLevelSize size (c + k) / 64) := by
  induction n generalizing c symbols k with
  | zero => exact absurd hk (Nat.not_lt_zero k)
  | succ n ih =>
      rw [rebuildLoop, ← bitmapLevelSize_succ]
      cases k with
      | zero =>
          have hbelow : c + 0 ≠ c + 1 := by omega
          rw [rebuildLoop_of_le _ _ _ _ (Nat.le_refl _),
            rebuildLoop_of_le n (c + 1) _ _ (show c + 0 ≤ c + 1 by omega), Function.update_self,
            Function.update_of_ne hbelow]
          rfl
      | succ k =>
          have hnext := ih (c + 1) (Function.update symbols (c + 1)
            (orAtoms (symbols c) (symbols (c + 1)) (bitmapLevelSize size c / 64)))
            (show k < n by omega)
          have hshift : c + 1 + k = c + (k + 1) := by omega
          rw [hshift, Function.update_of_ne (by omega)] at hnext
          exact hnext

/-- The levels from `level` on agree after they are rebuilt exactly if all of them gather. -/
theorem rebuildLoop_up_iff (symbols : ℕ → Bitmap) (level size : ℕ) (hlevel : level < Indexes) :
    (∀ k, level + k < Indexes - 1 → ∀ i < bitmapLevelSize size (level + k + 1),
        rebuildLoop (Indexes - 1 - level) level (bitmapLevelSize size level) symbols (level + k + 1) i
          = up (rebuildLoop (Indexes - 1 - level) level (bitmapLevelSize size level) symbols
              (level + k)) i) ↔
      RebuildOk symbols level size := by
  set rebuilt := rebuildLoop (Indexes - 1 - level) level (bitmapLevelSize size level) symbols
    with hrebuilt
  -- one level, once the levels below it are known to be the disjunctions
  have hone : ∀ k, level + k < Indexes - 1 →
      (∀ i < bitmapLevelSize size (level + k), rebuilt (level + k) i = up^[k] (symbols level) i) →
      ((∀ i < bitmapLevelSize size (level + k + 1), rebuilt (level + k + 1) i =
          up (rebuilt (level + k)) i) ↔
        Gathers (up^[k] (symbols level)) (symbols (level + k + 1))
          (bitmapLevelSize size (level + k))) := by
    intro k hk hagree
    rw [← orAtoms_up_iff hagree, hrebuilt, rebuildLoop_succ _ _ _ _ (by omega), bitmapLevelSize_succ]
  have hnext : ∀ k, level + k < Indexes - 1 →
      (∀ i < bitmapLevelSize size (level + k), rebuilt (level + k) i = up^[k] (symbols level) i) →
      (∀ i < bitmapLevelSize size (level + k + 1), rebuilt (level + k + 1) i =
          up (rebuilt (level + k)) i) →
      ∀ i < bitmapLevelSize size (level + (k + 1)),
        rebuilt (level + (k + 1)) i = up^[k + 1] (symbols level) i := by
    intro k hk hagree hup i hi
    have hi' : i < bitmapLevelSize size (level + k + 1) := hi
    rw [bitmapLevelSize_succ] at hi'
    rw [Function.iterate_succ_apply']
    refine (hup i hi).trans ?_
    simp only [up, hagree (2 * i) (by omega), hagree (2 * i + 1) (by omega)]
  have hzero : ∀ i < bitmapLevelSize size (level + 0),
      rebuilt (level + 0) i = up^[0] (symbols level) i := by
    intro i _
    rw [hrebuilt, Nat.add_zero, rebuildLoop_of_le _ _ _ _ (Nat.le_refl _), Function.iterate_zero, id]
  constructor
  · intro hup k hk
    have hagree : ∀ k, level + k < Indexes - 1 → ∀ i < bitmapLevelSize size (level + k),
        rebuilt (level + k) i = up^[k] (symbols level) i := by
      intro k
      induction k with
      | zero => exact fun _ => hzero
      | succ k ih => exact fun hk => hnext k (by omega) (ih (by omega)) (hup k (by omega))
    exact (hone k hk (hagree k hk)).mp (hup k hk)
  · intro hok
    have hagree : ∀ k, level + k < Indexes - 1 → ∀ i < bitmapLevelSize size (level + k),
        rebuilt (level + k) i = up^[k] (symbols level) i := by
      intro k
      induction k with
      | zero => exact fun _ => hzero
      | succ k ih =>
          intro hk
          have hk' : level + k < Indexes - 1 := by omega
          exact hnext k hk' (ih hk') ((hone k hk' (ih hk')).mpr (hok k hk'))
    exact fun k hk => (hone k hk (hagree k hk)).mpr (hok k hk)

end Rebuild

section Fill

theorem fillDown_of_gt (fill : Bitmap → ℕ → ℕ → Bitmap) (level start stop : ℕ)
    (symbols : ℕ → Bitmap) {l : ℕ} (hl : level < l) :
    fillDown fill level start stop symbols l = symbols l := by
  induction level generalizing start stop symbols with
  | zero => rw [fillDown, Function.update_of_ne (by omega)]
  | succ ll ih => rw [fillDown, ih _ _ _ (by omega), Function.update_of_ne (by omega)]

theorem fillDown_of_le (fill : Bitmap → ℕ → ℕ → Bitmap) (level start stop : ℕ)
    (symbols : ℕ → Bitmap) {l : ℕ} (hl : l ≤ level) :
    fillDown fill level start stop symbols l =
      fill (symbols l) (start * 2 ^ (level - l)) (stop * 2 ^ (level - l)) := by
  induction level generalizing start stop symbols with
  | zero =>
      obtain rfl : l = 0 := by omega
      simp [fillDown]
  | succ ll ih =>
      rw [fillDown]
      by_cases heq : l = ll + 1
      · subst heq
        rw [fillDown_of_gt _ _ _ _ _ (Nat.lt_succ_self ll), Function.update_self]
        simp
      · have hle : l ≤ ll := by omega
        have hpow : 2 ^ (ll + 1 - l) = 2 * 2 ^ (ll - l) := by
          rw [← Nat.pow_succ', Nat.succ_sub hle]
        rw [ih _ _ _ hle, Function.update_of_ne heq, hpow, Nat.mul_assoc, Nat.mul_assoc]

/-- The range filled at a level is twice the range filled at the level above. -/
theorem fillDown_range {level start l : ℕ} (hl : l < level) :
    start * 2 ^ (level - l) = 2 * (start * 2 ^ (level - (l + 1))) := by
  have hpow : 2 ^ (level - l) = 2 * 2 ^ (level - (l + 1)) := by
    rw [← Nat.pow_succ']
    congr 1
    omega
  rw [hpow, Nat.mul_left_comm]

theorem fillUp_of_lt (n ll start stop : ℕ) (symbols : ℕ → Bitmap) {l : ℕ} (hl : l < ll) :
    fillUp n ll start stop symbols l = symbols l := by
  induction n generalizing ll start stop symbols with
  | zero => rfl
  | succ n ih => rw [fillUp, ih _ _ _ _ (by omega), Function.update_of_ne (by omega)]

theorem fillUp_apply (n ll idx stop : ℕ) (symbols : ℕ → Bitmap) (m : ℕ) {k : ℕ} (hk : k < n) :
    fillUp n ll (idx / 2 ^ m) (divUp stop (2 ^ m)) symbols (ll + k) =
      (symbols (ll + k)).fillOne (idx / 2 ^ (m + k + 1)) (divUp stop (2 ^ (m + k + 1))) := by
  induction n generalizing ll symbols m k with
  | zero => exact absurd hk (Nat.not_lt_zero k)
  | succ n ih =>
      rw [fillUp, Nat.div_div_eq_div_mul, ← Nat.pow_succ, divUp_divUp_two]
      cases k with
      | zero =>
          rw [fillUp_of_lt _ _ _ _ _ (by omega)]
          exact Function.update_self ..
      | succ k =>
          have hnext := ih (ll + 1) (Function.update symbols ll ((symbols ll).fillOne
            (idx / 2 ^ (m + 1)) (divUp stop (2 ^ (m + 1))))) (m + 1) (show k < n by omega)
          have hshift : ll + 1 + k = ll + (k + 1) := by omega
          have hexp : m + 1 + k + 1 = m + (k + 1) + 1 := by omega
          rw [hshift, hexp, Function.update_of_ne (by omega)] at hnext
          exact hnext

end Fill

section SetBits

variable {map : PkdAllocationMap} {level idx size : ℕ}

theorem setBits_below {l : ℕ} (hl : l ≤ level) :
    (map.setBits level idx size).symbols l =
      (map.symbols l).fillOne (idx * 2 ^ (level - l)) ((idx + size) * 2 ^ (level - l)) := by
  simp only [setBits]
  rw [fillUp_of_lt _ _ _ _ _ (by omega), fillDown_of_le _ _ _ _ _ hl]

theorem setBits_above (hlevel : level < Indexes) {k : ℕ} (hk : level + k < Indexes) :
    (map.setBits level idx size).symbols (level + k) =
      (map.symbols (level + k)).fillOne (idx / 2 ^ k) (divUp (idx + size) (2 ^ k)) := by
  cases k with
  | zero =>
      rw [Nat.add_zero, setBits_below (Nat.le_refl level)]
      simp
  | succ k =>
      have hup := fillUp_apply (Indexes - 1 - level) (level + 1) idx (idx + size)
        (fillDown fillOne level idx (idx + size) map.symbols) 0 (show k < Indexes - 1 - level by omega)
      have hshift : level + 1 + k = level + (k + 1) := by omega
      simp only [Nat.pow_zero, Nat.div_one, divUp_one, hshift, Nat.zero_add] at hup
      simp only [setBits]
      rw [hup, fillDown_of_gt _ _ _ _ _ (by omega)]

/-- The levels below the one of the call agree, since their ranges are the doubled ones. -/
theorem fillDown_up {fill : Bitmap → ℕ → ℕ → Bitmap} {value : Bool}
    (hfill : ∀ bitmap start stop i, fill bitmap start stop i =
      if start ≤ i ∧ i < stop then value else bitmap i)
    {upper lower : Bitmap} {start stop i : ℕ} (hup : upper i = up lower i) :
    fill upper start stop i = up (fill lower (2 * start) (2 * stop)) i := by
  have hleft : (2 * start ≤ 2 * i ∧ 2 * i < 2 * stop) ↔ (start ≤ i ∧ i < stop) := by omega
  have hright : (2 * start ≤ 2 * i + 1 ∧ 2 * i + 1 < 2 * stop) ↔ (start ≤ i ∧ i < stop) := by omega
  simp only [up, hfill, hleft, hright] at hup ⊢
  split
  · simp
  · exact hup

theorem setBits_up_below (hcons : map.Consistent) (hlevel : level < Indexes) {l i : ℕ}
    (hl : l < level) (hi : i < bitmapLevelSize map.size (l + 1)) :
    (map.setBits level idx size).symbols (l + 1) i =
      up ((map.setBits level idx size).symbols l) i := by
  rw [setBits_below hl, setBits_below (Nat.le_of_lt hl), fillDown_range hl, fillDown_range hl]
  exact fillDown_up (fun _ _ _ _ => rfl) (hcons l (by omega) i hi)

/-- Upwards the range of the next level holds the bits with a child in the range. -/
theorem setBits_up_above (hcons : map.Consistent) (hlevel : level < Indexes) (hsize : 0 < size)
    {k i : ℕ} (hk : level + k < Indexes - 1) (hi : i < bitmapLevelSize map.size (level + k + 1)) :
    (map.setBits level idx size).symbols (level + k + 1) i =
      up ((map.setBits level idx size).symbols (level + k)) i := by
  have hold := hcons (level + k) hk i hi
  rw [setBits_above hlevel (by omega), Nat.add_assoc level k 1, setBits_above hlevel (by omega),
    Nat.pow_succ, ← Nat.div_div_eq_div_mul, ← Nat.pow_succ, ← divUp_divUp_two]
  have hrange : idx / 2 ^ k < divUp (idx + size) (2 ^ k) := by
    have hpos := Nat.two_pow_pos k
    rw [divUp_eq hpos]
    have hstep : (idx + 2 ^ k) / 2 ^ k ≤ (idx + size + (2 ^ k - 1)) / 2 ^ k :=
      Nat.div_le_div_right (by omega)
    rw [Nat.add_div_right _ hpos] at hstep
    exact hstep
  generalize idx / 2 ^ k = start at *
  generalize divUp (idx + size) (2 ^ k) = stop at *
  have hhalf : divUp stop 2 = (stop + 1) / 2 := divUp_eq (by decide) stop
  have hiff : (start / 2 ≤ i ∧ i < divUp stop 2) ↔
      (start ≤ 2 * i ∧ 2 * i < stop) ∨ (start ≤ 2 * i + 1 ∧ 2 * i + 1 < stop) := by omega
  rw [Nat.add_assoc] at hold
  simp only [up, fillOne, hiff, hold]
  by_cases hleft : start ≤ 2 * i ∧ 2 * i < stop <;>
    by_cases hright : start ≤ 2 * i + 1 ∧ 2 * i + 1 < stop <;> simp [hleft, hright]

/-- A range that is aligned at a level leaves the level as it is. -/
theorem setBits_aligned (hlevel : level < Indexes) {k : ℕ} (hk : level + k < Indexes)
    (hdvd : 2 ^ k ∣ idx) :
    (map.setBits level idx 0).symbols (level + k) = map.symbols (level + k) := by
  rw [setBits_above hlevel hk]
  have hstop : divUp idx (2 ^ k) = idx / 2 ^ k := by
    simp [divUp, Nat.mod_eq_zero_of_dvd hdvd]
  funext i
  have hempty : ¬ (idx / 2 ^ k ≤ i ∧ i < idx / 2 ^ k) := by omega
  simp only [fillOne, Nat.add_zero, hstop, if_neg hempty]

theorem setBits_unaligned (hlevel : level < Indexes) {k : ℕ} (hk : level + k < Indexes)
    (hdvd : ¬ 2 ^ k ∣ idx) (i : ℕ) :
    (map.setBits level idx 0).symbols (level + k) i =
      if i = idx / 2 ^ k then true else map.symbols (level + k) i := by
  have hmod : idx % 2 ^ k ≠ 0 := fun hzero => hdvd (Nat.dvd_of_mod_eq_zero hzero)
  have hstop : divUp idx (2 ^ k) = idx / 2 ^ k + 1 := by
    simp [divUp, hmod]
  have hiff : (idx / 2 ^ k ≤ i ∧ i < idx / 2 ^ k + 1) ↔ i = idx / 2 ^ k := by omega
  rw [setBits_above hlevel hk]
  simp only [fillOne, Nat.add_zero, hstop, hiff]

/-- A call for no bits sets, at each level where its index is not aligned, one bit that stands for
no unit of the call; the levels agree after it exactly if all these bits were set before. -/
theorem setBits_zero_iff (hcons : map.Consistent) (hdvd : 512 ∣ map.size)
    (hrange : map.InRange level idx 0) :
    (map.setBits level idx 0).Consistent ↔
      ∀ k, level + k < Indexes → ¬ 2 ^ k ∣ idx → map.symbols (level + k) (idx / 2 ^ k) = true := by
  obtain ⟨hlevel, hidx⟩ := hrange
  constructor
  · intro hafter k
    induction k with
    | zero => intro _ hnot; exact absurd (Nat.one_dvd idx) hnot
    | succ k ih =>
        intro hk hnot
        -- the bit is one of the map: the size of the level of the call is a multiple of its span
        have hlt : idx / 2 ^ (k + 1) < bitmapLevelSize map.size (level + k + 1) := by
          have hspan := bitmapLevelSize_span hdvd (Nat.le_of_lt hk)
          refine Nat.div_lt_of_lt_mul ?_
          change idx < 2 ^ (k + 1) * bitmapLevelSize map.size (level + (k + 1))
          rw [hspan]
          refine Nat.lt_of_le_of_ne (by omega) fun heq => hnot ?_
          rw [heq, ← hspan]
          exact Nat.dvd_mul_right _ _
        have hbefore := hcons (level + k) (by omega) _ hlt
        have hhalf : idx / 2 ^ (k + 1) = idx / 2 ^ k / 2 := by
          rw [Nat.pow_succ, Nat.div_div_eq_div_mul]
        rw [← Nat.add_assoc, hbefore, hhalf]
        by_cases haligned : 2 ^ k ∣ idx
        · have hset := hafter (level + k) (by omega) _ hlt
          rw [Nat.add_assoc, setBits_unaligned hlevel hk hnot, if_pos rfl,
            setBits_aligned hlevel (by omega) haligned, hhalf] at hset
          exact hset.symm
        · have hchild := ih (by omega) haligned
          rcases Nat.mod_two_eq_zero_or_one (idx / 2 ^ k) with hmod | hmod
          · have heq : 2 * (idx / 2 ^ k / 2) = idx / 2 ^ k := by omega
            rw [heq, hchild, Bool.true_or]
          · have heq : 2 * (idx / 2 ^ k / 2) + 1 = idx / 2 ^ k := by omega
            rw [heq, hchild, Bool.or_true]
  · intro hset
    have hsame : ∀ l < Indexes, ∀ i, (map.setBits level idx 0).symbols l i = map.symbols l i := by
      intro l hl i
      by_cases hbelow : l ≤ level
      · have hempty : ¬ (idx * 2 ^ (level - l) ≤ i ∧ i < idx * 2 ^ (level - l)) := by omega
        rw [setBits_below hbelow]
        simp only [fillOne, Nat.add_zero, if_neg hempty]
      · obtain ⟨k, rfl⟩ := Nat.exists_eq_add_of_le (Nat.le_of_not_le hbelow)
        by_cases haligned : 2 ^ k ∣ idx
        · rw [setBits_aligned hlevel hl haligned]
        · rw [setBits_unaligned hlevel hl haligned]
          split
          · next heq => rw [heq, hset k hl haligned]
          · rfl
    intro l hl i hi
    rw [hsame _ (by omega), hsame _ (by omega), hsame _ (by omega)]
    exact hcons l hl i hi

end SetBits

section Rebuilding

variable {map : PkdAllocationMap} {level idx size : ℕ}

/-- The condition reads the level it starts from and the levels above. -/
theorem rebuildOk_congr {symbols others : ℕ → Bitmap} (h : ∀ l, level ≤ l → symbols l = others l) :
    RebuildOk symbols level size ↔ RebuildOk others level size := by
  unfold RebuildOk
  refine forall₂_congr fun k _ => ?_
  rw [h level (Nat.le_refl level), h (level + k + 1) (by omega)]

@[simp] theorem reindexLevels_symbols : map.reindexLevels.symbols = map.symbols := rfl

@[simp] theorem reindexLevels_size : map.reindexLevels.size = map.size := rfl

theorem reindexLevels_consistent : map.reindexLevels.Consistent ↔ map.Consistent := Iff.rfl

theorem rebuildBitmaps_below {l : ℕ} (hl : l ≤ level) :
    (map.rebuildBitmaps level).symbols l = map.symbols l :=
  rebuildLoop_of_le _ _ _ _ hl

/-- A map whose levels agree up to `level` agrees everywhere after the levels above are rebuilt
exactly if these gather. -/
theorem rebuildBitmaps_consistent_iff (hlevel : level < Indexes)
    (hbelow : ∀ l < level, ∀ i < bitmapLevelSize map.size (l + 1),
      map.symbols (l + 1) i = up (map.symbols l) i) :
    (map.rebuildBitmaps level).Consistent ↔ RebuildOk map.symbols level map.size := by
  rw [← rebuildLoop_up_iff map.symbols level map.size hlevel]
  constructor
  · intro hcons k hk i hi
    exact hcons (level + k) hk i hi
  · intro hup l hl i hi
    by_cases hless : l < level
    · rw [rebuildBitmaps_below hless, rebuildBitmaps_below (Nat.le_of_lt hless)]
      exact hbelow l hless i hi
    · obtain ⟨k, rfl⟩ := Nat.exists_eq_add_of_le (Nat.le_of_not_lt hless)
      exact hup k hl i hi

theorem clearBits_consistent_iff (hcons : map.Consistent) (hlevel : level < Indexes) :
    (map.clearBits level idx size).Consistent ↔
      RebuildOk (Function.update map.symbols level
        ((map.symbols level).fillZero idx (idx + size))) level map.size := by
  have hbelow : ∀ l < level, ∀ i < bitmapLevelSize map.size (l + 1),
      fillDown fillZero level idx (idx + size) map.symbols (l + 1) i =
        up (fillDown fillZero level idx (idx + size) map.symbols l) i := by
    intro l hl i hi
    rw [fillDown_of_le _ _ _ _ _ hl, fillDown_of_le _ _ _ _ _ (Nat.le_of_lt hl), fillDown_range hl,
      fillDown_range hl]
    exact fillDown_up (fun _ _ _ _ => rfl) (hcons l (by omega) i hi)
  have hsame : ∀ l, level ≤ l → fillDown fillZero level idx (idx + size) map.symbols l =
      Function.update map.symbols level ((map.symbols level).fillZero idx (idx + size)) l := by
    intro l hl
    rcases Nat.eq_or_lt_of_le hl with rfl | hless
    · rw [fillDown_of_le _ _ _ _ _ (Nat.le_refl _), Function.update_self]
      simp
    · rw [fillDown_of_gt _ _ _ _ _ hless, Function.update_of_ne (by omega)]
  have hcode : map.clearBits level idx size = (rebuildBitmaps { map with
      symbols := fillDown fillZero level idx (idx + size) map.symbols } level).reindexLevels := rfl
  rw [← rebuildOk_congr hsame, hcode, reindexLevels_consistent]
  exact rebuildBitmaps_consistent_iff hlevel hbelow

theorem reindex_true_consistent_iff :
    (map.reindex true).Consistent ↔ RebuildOk map.symbols 0 map.size := by
  have hcode : map.reindex true = (map.rebuildBitmaps 0).reindexLevels := rfl
  rw [hcode, reindexLevels_consistent]
  exact rebuildBitmaps_consistent_iff (by decide) fun l hl => absurd hl (Nat.not_lt_zero l)

theorem reindexLevels_indexed (map : PkdAllocationMap) : map.reindexLevels.Indexed := by
  intro l hl b hb
  have hb' : b < indexLevelSize (bitmapLevelSize map.size l) := hb
  have hentry : map.reindexLevels.index l b =
      indexEntry (map.symbols l) (bitmapLevelSize map.size l) b := by
    simp only [reindexLevels, if_pos (And.intro hl hb')]
  rw [hentry]
  simp only [indexEntry, popCount, reindexLevels_symbols, reindexLevels_size]
  set start := b * ValuesPerBranch
  set total := bitmapLevelSize map.size l
  have hlength : (if start + ValuesPerBranch ≤ total then start + ValuesPerBranch else total) - start
      = min ValuesPerBranch (total - start) := by
    split <;> omega
  rw [hlength]
  set block := List.range' start (min ValuesPerBranch (total - start)) with hblock
  have hcount : block.length = block.countP (map.symbols l) + block.countP fun i =>
      decide ¬ map.symbols l i = true := List.length_eq_countP_add_countP (map.symbols l)
  rw [hblock, List.length_range', ← hblock] at hcount
  simp only [Bool.not_eq_true, Bool.decide_eq_false] at hcount
  omega

theorem reindex_indexed (recompute : Bool) : (map.reindex recompute).Indexed := by
  cases recompute with
  | false => exact reindexLevels_indexed map
  | true => exact reindexLevels_indexed (map.rebuildBitmaps 0)

end Rebuilding

structure Inv (map : PkdAllocationMap) : Prop where
  size : 512 ∣ map.size
  consistent : map.Consistent

variable {map map' : PkdAllocationMap} {op : Op}

theorem inv_init (bitmap_size : ℕ) : Inv (initBySize bitmap_size) where
  size := Nat.dvd_zero 512
  consistent := by
    intro l _ i hi
    rfl

theorem step_size (h : 512 ∣ map.size) (hstep : step map op = some map') : 512 ∣ map'.size := by
  cases op with
  | enlarge size =>
      obtain rfl := Option.some.inj hstep
      unfold enlarge
      split
      · exact h
      split
      · exact h
      next hmod _ =>
        have hdvd : 512 ∣ size := Nat.dvd_of_mod_eq_zero (by simpa [ValuesPerBranch] using hmod)
        exact Nat.dvd_add h hdvd
  | setBits level idx size =>
      obtain ⟨-, heq⟩ := Option.ite_none_right_eq_some.mp hstep
      obtain rfl := Option.some.inj heq
      exact h
  | clearBits level idx size =>
      obtain ⟨-, heq⟩ := Option.ite_none_right_eq_some.mp hstep
      obtain rfl := Option.some.inj heq
      exact h
  | reindex recompute =>
      obtain rfl := Option.some.inj hstep
      cases recompute <;> exact h

theorem enlarge_eq_some {size : ℕ} (hmod : size % ValuesPerBranch = 0)
    (hfits : size + map.size ≤ map.capacity) :
    map.enlarge size = some (reindex { map with
      symbols := Function.update map.symbols 0
        ((map.symbols 0).fillZero map.size (map.size + size))
      size := map.size + size } true) := by
  have hfits' : ¬ size + map.size > map.capacity := by omega
  simp [enlarge, hmod, hfits']

theorem enlarge_eq_none {size : ℕ}
    (h : ¬ (size % ValuesPerBranch = 0 ∧ size + map.size ≤ map.capacity)) :
    map.enlarge size = none := by
  unfold enlarge
  split
  · rfl
  · rw [if_pos]
    omega

/-- **One step.** The levels agree after a call exactly if the call is one that `StepOk` allows. -/
theorem Inv.consistent_iff (h : Inv map) (hstep : step map op = some map') :
    map'.Consistent ↔ StepOk map op := by
  cases op with
  | enlarge size =>
      obtain rfl := Option.some.inj hstep
      by_cases hok : size % ValuesPerBranch = 0 ∧ size + map.size ≤ map.capacity
      · rw [enlarge_eq_some hok.1 hok.2, Option.getD_some, reindex_true_consistent_iff]
        simp only [StepOk, hok.1, hok.2, forall_const]
      · rw [enlarge_eq_none hok, Option.getD_none]
        exact iff_of_true h.consistent fun hmod hfits => absurd ⟨hmod, hfits⟩ hok
  | setBits level idx size =>
      obtain ⟨hrange, heq⟩ := Option.ite_none_right_eq_some.mp hstep
      obtain rfl := Option.some.inj heq
      simp only [StepOk, hrange, forall_const]
      rcases Nat.eq_zero_or_pos size with rfl | hpos
      · rw [setBits_zero_iff h.consistent h.size hrange]
        simp
      · refine iff_of_true ?_ fun hzero => absurd hzero (by omega)
        intro l hl i hi
        by_cases hless : l < level
        · exact setBits_up_below h.consistent hrange.1 hless hi
        · obtain ⟨k, rfl⟩ := Nat.exists_eq_add_of_le (Nat.le_of_not_lt hless)
          exact setBits_up_above h.consistent hrange.1 hpos hl hi
  | clearBits level idx size =>
      obtain ⟨hrange, heq⟩ := Option.ite_none_right_eq_some.mp hstep
      obtain rfl := Option.some.inj heq
      rw [clearBits_consistent_iff h.consistent hrange.1]
      simp only [StepOk, hrange, forall_const]
  | reindex recompute =>
      obtain rfl := Option.some.inj hstep
      cases recompute with
      | false => exact iff_of_true h.consistent fun hfalse => absurd hfalse (by decide)
      | true =>
          rw [reindex_true_consistent_iff]
          simp only [StepOk, forall_const]

/-- What a call does to the units and the indexes does not depend on the condition. -/
theorem outcome (map : PkdAllocationMap) (op : Op) : Outcome map op := by
  intro map' hstep
  cases op with
  | enlarge size =>
      obtain rfl := Option.some.inj hstep
      dsimp only
      split_ifs with hok
      · rw [enlarge_eq_some hok.1 hok.2, Option.getD_some]
        refine ⟨rfl, reindex_indexed true, ?_⟩
        intro u hu
        have hu' : u < map.size + size := hu
        have hbits : (reindex { map with
            symbols := Function.update map.symbols 0
              ((map.symbols 0).fillZero map.size (map.size + size))
            size := map.size + size } true).symbols 0 u =
            (map.symbols 0).fillZero map.size (map.size + size) u := by
          simp only [reindex, if_true, reindexLevels_symbols]
          rw [rebuildBitmaps_below (Nat.le_refl 0)]
          simp only [Function.update_self]
        rw [hbits]
        by_cases hold : u < map.size
        · have hout : ¬ (map.size ≤ u ∧ u < map.size + size) := by omega
          simp only [fillZero, if_neg hout, if_pos hold]
        · have hin : map.size ≤ u ∧ u < map.size + size := by omega
          simp only [fillZero, if_pos hin, if_neg hold]
      · rw [enlarge_eq_none hok, Option.getD_none]
  | setBits level idx size =>
      obtain ⟨hrange, heq⟩ := Option.ite_none_right_eq_some.mp hstep
      obtain rfl := Option.some.inj heq
      refine ⟨rfl, fun u _ => ?_⟩
      rw [setBits_below (Nat.zero_le level)]
      rfl
  | clearBits level idx size =>
      obtain ⟨hrange, heq⟩ := Option.ite_none_right_eq_some.mp hstep
      obtain rfl := Option.some.inj heq
      refine ⟨rfl, reindex_indexed false, fun u _ => ?_⟩
      have hbits : (map.clearBits level idx size).symbols 0 =
          fillDown fillZero level idx (idx + size) map.symbols 0 :=
        rebuildBitmaps_below (Nat.zero_le level)
      rw [hbits, fillDown_of_le _ _ _ _ _ (Nat.zero_le level)]
      rfl
  | reindex recompute =>
      obtain rfl := Option.some.inj hstep
      refine ⟨by cases recompute <;> rfl, reindex_indexed recompute, fun u _ => ?_⟩
      cases recompute with
      | false => rfl
      | true =>
          have hbits : (map.reindex true).symbols 0 = map.symbols 0 :=
            rebuildBitmaps_below (Nat.le_refl 0)
          rw [hbits]

/-- A call that the condition excludes is one that the map carries out. -/
theorem exists_step (hnot : ¬ StepOk map op) : ∃ map', PkdAllocationMap.step map op = some map' := by
  cases op with
  | enlarge size => exact ⟨_, rfl⟩
  | setBits level idx size =>
      have hrange : map.InRange level idx size := by
        by_contra hout
        exact hnot fun hin => absurd hin hout
      exact ⟨_, if_pos hrange⟩
  | clearBits level idx size =>
      have hrange : map.InRange level idx size := by
        by_contra hout
        exact hnot fun hin => absurd hin hout
      exact ⟨_, if_pos hrange⟩
  | reindex recompute => exact ⟨_, rfl⟩

/-- A call within the condition keeps every level the disjunction of the level below it. -/
theorem Inv.step (h : Inv map) (hok : StepOk map op)
    (hstep : PkdAllocationMap.step map op = some map') : Inv map' :=
  ⟨step_size h.size hstep, (h.consistent_iff hstep).mpr hok⟩

/-- **When the levels agree.** In a run from a new map the levels agree in every state, and every
call does to the units and the indexes what it is to do, if and only if every call is one that
`StepOk` allows. -/
theorem run_consistent_iff (bitmap_size : ℕ) (ops : List Op) :
    (EveryState step Consistent (initBySize bitmap_size) ops ∧
        EveryStep step Outcome (initBySize bitmap_size) ops) ↔
      EveryStep step StepOk (initBySize bitmap_size) ops := by
  constructor
  · rintro ⟨hstates, houts⟩
    refine EveryStep.of_broken (fun _ _ _ hinv hok => hinv.step hok) ?_ (inv_init bitmap_size) hstates
      houts
    intro map op hinv _ _ hnot
    obtain ⟨map', hstep⟩ := exists_step hnot
    exact ⟨map', hstep, mt (hinv.consistent_iff hstep).mp hnot⟩
  · intro hrun
    exact ⟨EveryState.of_invariant (fun _ _ _ hinv hok => hinv.step hok)
      (fun _ hinv => hinv.consistent) (inv_init bitmap_size) hrun,
      EveryStep.trivial_of outcome _ _⟩

/-- A map of 512 units: units 1 and 2 are set and unit 2 is cleared again; then bit 0 of level 1 is
clear while unit 1 is set. -/
theorem run_not_consistent : ¬ ∀ (bitmap_size : ℕ) (ops : List Op),
    EveryState step Consistent (initBySize bitmap_size) ops ∧
      EveryStep step Outcome (initBySize bitmap_size) ops := by
  intro h
  have hstates := (h 512 [.enlarge 512, .setBits 0 1 2, .clearBits 0 2 1]).1
  have hlast := ((hstates.2 _ rfl).2 _ rfl).2 _ rfl 0 (by decide) 0 (by decide)
  revert hlast
  decide +kernel

end PkdAllocationMap

end Memoria

import Mathlib.Algebra.Order.BigOperators.Group.List
import Mathlib.Data.List.Forall2
import Mathlib.Data.List.GetD
import Mathlib.Tactic.Tauto
import Memoria.PackedAllocator

/-!
# Space in nested allocators

`resizeBlock` asks the parent for the whole growth of an element as soon as the free space of the
allocator does not cover it, so one allocator on the way up has to have all of it. `allocate` asks
for the rest only, but the request that it makes is a `resizeBlock` of the parent.
-/

namespace Memoria

theorem roundUpBytesToAlignmentBlocks_of_dvd {n : Int} (h : alignmentBlock ∣ n) :
    roundUpBytesToAlignmentBlocks n = n := by
  obtain ⟨k, rfl⟩ := h
  have hdiv : (alignmentBlock * k).tdiv alignmentBlock = k :=
    Int.mul_tdiv_cancel_left k (by decide)
  have hmod : (alignmentBlock * k).tmod alignmentBlock = 0 := Int.mul_tmod_right _ _
  rw [roundUpBytesToAlignmentBlocks, hdiv, hmod, if_pos rfl, add_zero, mul_comm]

namespace PackedAllocator

variable {a a' parent : PackedAllocator} {outer outer' rest : Outer} {idx i start : Nat} {d : Int}

theorem Ordered.elements_lt (h : a.Ordered) : a.elements < a.layout.length := by
  have := List.length_pos_iff.mpr h.nonempty
  rw [elements]
  omega

@[simp]
theorem moveElements_blockSize : (a.moveElements start d).blockSize = a.blockSize := rfl

@[simp]
theorem moveElements_bitmapSize : (a.moveElements start d).bitmapSize = a.bitmapSize := rfl

@[simp]
theorem moveElements_length : (a.moveElements start d).layout.length = a.layout.length := by
  simp [moveElements]

@[simp]
theorem moveElements_elements : (a.moveElements start d).elements = a.elements := by
  simp [elements]

theorem elementOffset_moveElements (hi : i < a.layout.length) :
    (a.moveElements start d).elementOffset i
      = if start ≤ i then a.elementOffset i + d else a.elementOffset i := by
  simp [moveElements, elementOffset, List.getD_eq_getElem?_getD, hi]

theorem elementSize_moveElements (hidx : idx < a.elements) :
    (a.moveElements (idx + 1) d).elementSize idx = a.elementSize idx + d := by
  have hlt : idx + 1 < a.layout.length := by rw [elements] at hidx; omega
  rw [elementSize, elementOffset_moveElements hlt,
    elementOffset_moveElements (by omega : idx < a.layout.length), if_pos le_rfl,
    if_neg (by omega), elementSize]
  omega

theorem freeSpace_moveElements (ha : a.Ordered) (hstart : start ≤ a.elements) :
    (a.moveElements start d).freeSpace = a.freeSpace - d := by
  have hmove := (@elementOffset_moveElements a a.elements start d) ha.elements_lt
  rw [if_pos hstart] at hmove
  simp only [freeSpace, clientArea, allocated, layoutSize, moveElements_blockSize,
    moveElements_bitmapSize, moveElements_length, moveElements_elements, hmove]
  omega

theorem elementOffset_eq (hi : i < a.layout.length) : a.elementOffset i = a.layout[i] :=
  List.getD_eq_getElem _ _ hi

theorem elementOffset_mem (hi : i < a.layout.length) : a.elementOffset i ∈ a.layout := by
  rw [elementOffset_eq hi]
  exact List.getElem_mem hi

theorem exists_elementOffset {offset : Int} (h : offset ∈ a.layout) :
    ∃ i, i < a.layout.length ∧ a.elementOffset i = offset := by
  obtain ⟨i, hi, rfl⟩ := List.mem_iff_getElem.mp h
  exact ⟨i, hi, elementOffset_eq hi⟩

theorem sorted_iff :
    a.layout.Pairwise (· ≤ ·) ↔ ∀ i j, i < j → j < a.layout.length →
      a.elementOffset i ≤ a.elementOffset j := by
  rw [List.pairwise_iff_getElem]
  constructor
  · intro h i j hij hj
    rw [elementOffset_eq (hij.trans hj), elementOffset_eq hj]
    exact h i j (hij.trans hj) hj hij
  · intro h i j hi hj hij
    rw [← elementOffset_eq hi, ← elementOffset_eq hj]
    exact h i j hij hj

theorem Ordered.elementOffset_mono (ha : a.Ordered) {j : Nat} (hij : i ≤ j)
    (hj : j < a.layout.length) : a.elementOffset i ≤ a.elementOffset j := by
  obtain rfl | hlt := Nat.eq_or_lt_of_le hij
  · exact le_rfl
  · exact sorted_iff.mp ha.sorted i j hlt hj

/-- The layout after an element has changed its size by `d`. -/
theorem Ordered.moveElements (ha : a.Ordered) (hidx : idx < a.elements) (hd : alignmentBlock ∣ d)
    (hsize : 0 ≤ a.elementSize idx + d) (hfits : d ≤ a.freeSpace) :
    (a.moveElements (idx + 1) d).Ordered := by
  have hlt : idx + 1 < a.layout.length := by rw [elements] at hidx; omega
  have hsize' : 0 ≤ a.elementOffset (idx + 1) - a.elementOffset idx + d := hsize
  have hoffset : ∀ i, i < a.layout.length → (a.moveElements (idx + 1) d).elementOffset i
      = if idx + 1 ≤ i then a.elementOffset i + d else a.elementOffset i :=
    fun i hi => elementOffset_moveElements hi
  refine
    { even := by rw [moveElements_length]; exact ha.even
      nonempty := ?_
      aligned := ?_
      nonneg := ?_
      sorted := ?_
      blockSize_aligned := ha.blockSize_aligned
      bitmapSize_aligned := ha.bitmapSize_aligned
      bitmapSize_nonneg := ha.bitmapSize_nonneg
      fits := by rw [freeSpace_moveElements ha (by omega)]; omega }
  · rw [← List.length_pos_iff, moveElements_length]
    omega
  · intro offset hmem
    obtain ⟨i, hi, rfl⟩ := exists_elementOffset hmem
    rw [moveElements_length] at hi
    rw [hoffset i hi]
    have hold := ha.aligned _ (elementOffset_mem hi)
    split
    · exact Int.dvd_add hold hd
    · exact hold
  · intro offset hmem
    obtain ⟨i, hi, rfl⟩ := exists_elementOffset hmem
    rw [moveElements_length] at hi
    rw [hoffset i hi]
    split
    · next hle =>
        have hmono := ha.elementOffset_mono hle hi
        have hpos := ha.nonneg _ (elementOffset_mem (by omega : idx < a.layout.length))
        omega
    · exact ha.nonneg _ (elementOffset_mem hi)
  · rw [sorted_iff]
    intro i j hij hj
    rw [moveElements_length] at hj
    rw [hoffset i (by omega), hoffset j hj]
    have hmono := ha.elementOffset_mono hij.le hj
    split
    · rw [if_pos (by omega)]
      omega
    · split
      · next hi hj' =>
          have hleft := ha.elementOffset_mono (by omega : i ≤ idx) (by omega)
          have hright := ha.elementOffset_mono hj' hj
          omega
      · exact hmono

theorem freeSpace_withBlockSize :
    { a with blockSize := a.blockSize + d }.freeSpace = a.freeSpace + d := by
  simp only [freeSpace, clientArea, allocated, layoutSize, elements, elementOffset]
  omega

theorem elementSize_withBlockSize (n : Int) :
    { a with blockSize := n }.elementSize idx = a.elementSize idx := rfl

/-- Another block size with room for the elements. -/
theorem Ordered.withBlockSize (ha : a.Ordered) (hd : alignmentBlock ∣ d)
    (hfits : 0 ≤ a.freeSpace + d) : { a with blockSize := a.blockSize + d }.Ordered where
  even := ha.even
  nonempty := ha.nonempty
  aligned := ha.aligned
  nonneg := ha.nonneg
  sorted := ha.sorted
  blockSize_aligned := Int.dvd_add ha.blockSize_aligned hd
  bitmapSize_aligned := ha.bitmapSize_aligned
  bitmapSize_nonneg := ha.bitmapSize_nonneg
  fits := by rw [freeSpace_withBlockSize]; exact hfits

theorem Ordered.elementSize_aligned (ha : a.Ordered) (hidx : idx < a.elements) :
    alignmentBlock ∣ a.elementSize idx := by
  have hlt : idx + 1 < a.layout.length := by rw [elements] at hidx; omega
  exact Int.dvd_sub (ha.aligned _ (elementOffset_mem hlt))
    (ha.aligned _ (elementOffset_mem (by omega)))

theorem Ordered.elementSize_nonneg (ha : a.Ordered) (hidx : idx < a.elements) :
    0 ≤ a.elementSize idx := by
  have hlt : idx + 1 < a.layout.length := by rw [elements] at hidx; omega
  have hmono := ha.elementOffset_mono (Nat.le_succ idx) hlt
  rw [elementSize]
  exact Int.sub_nonneg_of_le hmono

theorem Ordered.freeSpace_aligned (ha : a.Ordered) : alignmentBlock ∣ a.freeSpace := by
  have hlayout : alignmentBlock ∣ a.layoutSize := by
    have heven := ha.even
    rw [layoutSize, alignmentBlock]
    omega
  have hmy : alignmentBlock ∣ mySize := by decide
  have hallocated : alignmentBlock ∣ a.allocated := ha.aligned _ (elementOffset_mem ha.elements_lt)
  exact Int.dvd_sub (Int.dvd_sub (Int.dvd_sub (Int.dvd_sub ha.blockSize_aligned hmy) hlayout)
    ha.bitmapSize_aligned) hallocated

theorem Ordered.used_nonneg (ha : a.Ordered) : 0 ≤ a.blockSize - a.freeSpace := by
  have hallocated := ha.nonneg _ (elementOffset_mem ha.elements_lt)
  have hbitmap := ha.bitmapSize_nonneg
  have hused : a.blockSize - a.freeSpace
      = mySize + a.layoutSize + a.bitmapSize + a.elementOffset a.elements := by
    rw [freeSpace, clientArea, allocated]
    omega
  rw [hused, mySize, layoutSize]
  omega

/-- A new allocator. -/
theorem init_ordered {blockSize : Int} {blocks : Nat} (hfits : 0 ≤ (init blockSize blocks).freeSpace) :
    (init blockSize blocks).Ordered where
  even := by
    simp only [init, List.length_replicate]
    split <;> omega
  nonempty := by
    simp only [init, ne_eq, List.replicate_eq_nil_iff]
    split <;> omega
  aligned := by
    intro offset hmem
    rw [List.eq_of_mem_replicate hmem]
    exact Int.dvd_zero _
  nonneg := by
    intro offset hmem
    rw [List.eq_of_mem_replicate hmem]
  sorted := List.pairwise_replicate.mpr (Or.inr le_rfl)
  blockSize_aligned := Int.dvd_mul_left _ _
  bitmapSize_aligned := Int.dvd_mul_left _ _
  bitmapSize_nonneg := by
    have hbytes : ∀ n : Nat, 0 ≤ roundUpBytesToAlignmentBlocks n := by
      intro n
      have hdiv : 0 ≤ (n : Int).tdiv alignmentBlock := Int.tdiv_nonneg (by omega) (by decide)
      rw [roundUpBytesToAlignmentBlocks]
      refine Int.mul_nonneg ?_ (by decide)
      split <;> omega
    simp only [init, roundUpBitsToAlignmentBlocks]
    set n := blocks + if blocks % 2 = 1 then 1 else 2
    have hbits : 0 ≤ (n : Int).tdiv 8 := Int.tdiv_nonneg (by omega) (by decide)
    obtain ⟨k, hk⟩ := Int.eq_ofNat_of_zero_le
      (show 0 ≤ (n : Int).tdiv 8 + if (n : Int).tmod 8 = 0 then 0 else 1 by split <;> omega)
    rw [hk]
    exact hbytes k
  fits := hfits

theorem Sound.ordered (h : Sound outer a) : a.Ordered := by
  cases outer with
  | nil => exact h
  | cons frame rest => exact h.1

/-- The parent sees the size of the block only. -/
theorem Sound.replace (h : Sound outer a) (ha' : a'.Ordered) (hsize : a'.blockSize = a.blockSize) :
    Sound outer a' := by
  cases outer with
  | nil => exact ha'
  | cons frame rest =>
      obtain ⟨-, hidx, hfill, hrest⟩ := h
      exact ⟨ha', hidx, hfill.trans hsize.symm, hrest⟩

def Covers (outer : Outer) (d : Int) : Prop := ∃ frame ∈ outer, d ≤ frame.2.freeSpace

def OuterWithin (bound : Int) (outer outer' : Outer) : Prop :=
  List.Forall₂ (fun frame frame' => frame'.2.blockSize - frame.2.blockSize ≤ bound) outer outer'

theorem OuterWithin.refl {bound : Int} (hbound : 0 ≤ bound) (outer : Outer) :
    OuterWithin bound outer outer :=
  List.forall₂_same.mpr fun frame _ => by omega

theorem Ordered.roundUp_newSize (ha : a.Ordered) (hidx : idx < a.elements)
    (hd : alignmentBlock ∣ d) :
    roundUpBytesToAlignmentBlocks (a.elementSize idx + d) = a.elementSize idx + d :=
  roundUpBytesToAlignmentBlocks_of_dvd (Int.dvd_add (ha.elementSize_aligned hidx) hd)

/-- An element that grows within the free space. -/
theorem resizeBlock_local (ha : a.Ordered) (hidx : idx < a.elements) (hpos : 0 < d)
    (hd : alignmentBlock ∣ d) (hfits : d ≤ a.freeSpace) :
    resizeBlock outer a idx (a.elementSize idx + d)
      = some (a.moveElements (idx + 1) d, outer, a.elementSize idx + d) := by
  have hsize := ha.elementSize_nonneg hidx
  simp only [resizeBlock, resizeBlockWith, ha.roundUp_newSize hidx hd, add_sub_cancel_left]
  rw [if_neg (by omega), if_pos hpos, if_neg (by omega)]

/-- An element that grows beyond the free space. -/
theorem resizeBlock_enlarge (ha : a.Ordered) (hidx : idx < a.elements) (hpos : 0 < d)
    (hd : alignmentBlock ∣ d) (hfits : a.freeSpace < d) :
    resizeBlock outer a idx (a.elementSize idx + d)
      = (resize outer a (a.blockSize + d)).map fun r =>
          (r.1.moveElements (idx + 1) d, r.2, a.elementSize idx + d) := by
  have hsize := ha.elementSize_nonneg hidx
  have hround : roundUpBytesToAlignmentBlocks (a.blockSize + d) = a.blockSize + d :=
    roundUpBytesToAlignmentBlocks_of_dvd (Int.dvd_add ha.blockSize_aligned hd)
  simp only [resizeBlock, resizeBlockWith, ha.roundUp_newSize hidx hd, add_sub_cancel_left]
  rw [if_neg (by omega), if_pos hpos, if_pos hfits, hround]
  cases resize outer a (a.blockSize + d) <;> rfl

theorem resize_cons (newSize : Int) :
    resize ((idx, parent) :: rest) a newSize = (resizeBlock rest parent idx newSize).map fun r =>
      ({ a with blockSize := r.2.2 }, (idx, r.1) :: r.2.1) := by
  rw [resize, resizeBlock]
  cases resizeBlockWith (resize rest) rest parent idx newSize <;> rfl

theorem covers_cons :
    Covers ((idx, parent) :: rest) d ↔ d ≤ parent.freeSpace ∨ Covers rest d := by
  simp [Covers]

/-- The allocators around an allocator whose parent has made its element larger or smaller. -/
theorem Sound.cons (hidx : idx < parent.elements)
    (hfill : parent.elementSize idx = a.blockSize) (hrest : Sound rest parent)
    (ha' : { a with blockSize := a.blockSize + d }.Ordered)
    (hmove : (parent.moveElements (idx + 1) d).Ordered) :
    Sound ((idx, parent.moveElements (idx + 1) d) :: rest)
      { a with blockSize := a.blockSize + d } := by
  refine ⟨ha', ?_, ?_, hrest.replace hmove rfl⟩
  · rw [moveElements_elements]
    exact hidx
  · rw [elementSize_moveElements hidx, hfill]

/-- Growing asks every allocator up to the first one with the space for all of it. -/
theorem resize_grow (h : Sound outer a) (hpos : 0 < d) (hd : alignmentBlock ∣ d) :
    (¬ Covers outer d → resize outer a (a.blockSize + d) = none)
      ∧ (Covers outer d → ∃ outer',
        resize outer a (a.blockSize + d) = some ({ a with blockSize := a.blockSize + d }, outer')
          ∧ OuterWithin d outer outer' ∧ Sound outer' { a with blockSize := a.blockSize + d }) := by
  induction outer generalizing a with
  | nil =>
      constructor
      · intro _
        rw [resize, if_neg (by omega)]
      · rintro ⟨frame, hframe, -⟩
        cases hframe
  | cons frame rest ih =>
      obtain ⟨idx, parent⟩ := frame
      obtain ⟨ha, hidx, hfill, hrest⟩ := h
      have hparent := hrest.ordered
      have hfree := ha.fits
      have hsize := hparent.elementSize_nonneg hidx
      have ha' := ha.withBlockSize hd (by omega)
      rw [covers_cons, resize_cons, ← hfill]
      by_cases hfits : d ≤ parent.freeSpace
      · refine ⟨fun hnot => absurd (Or.inl hfits) hnot, fun _ => ?_⟩
        rw [resizeBlock_local hparent hidx hpos hd hfits, hfill]
        have hmove := hparent.moveElements hidx hd (by omega) hfits
        refine ⟨_, rfl, .cons ?_ (OuterWithin.refl hpos.le rest), ?_⟩
        · change parent.blockSize - parent.blockSize ≤ d
          omega
        · exact Sound.cons hidx hfill hrest ha' hmove
      · rw [resizeBlock_enlarge hparent hidx hpos hd (by omega)]
        obtain ⟨hnone, hsome⟩ := ih hrest
        constructor
        · intro hnot
          rw [hnone fun hcovers => hnot (Or.inr hcovers)]
          rfl
        · intro hcovers
          obtain ⟨rest', heq, hwithin, hrest'⟩ := hsome (hcovers.resolve_left hfits)
          rw [heq, hfill]
          have hfree' := hparent.fits
          have hmove := (@Ordered.moveElements _ idx d) hrest'.ordered hidx hd
            (by rw [elementSize_withBlockSize]; omega) (by rw [freeSpace_withBlockSize]; omega)
          refine ⟨_, rfl, .cons ?_ hwithin, ?_⟩
          · change parent.blockSize + d - parent.blockSize ≤ d
            omega
          · exact Sound.cons hidx hfill hrest' ha' hmove

/-- An element that becomes smaller in the outermost allocator. -/
theorem resizeBlock_shrink_top (ha : a.Ordered) (hidx : idx < a.elements) (hpos : 0 < d)
    (hd : alignmentBlock ∣ d) (hsize : d ≤ a.elementSize idx) :
    resizeBlock [] a idx (a.elementSize idx + -d)
      = some (a.moveElements (idx + 1) (-d), [], a.elementSize idx + -d) := by
  simp only [resizeBlock, resizeBlockWith, ha.roundUp_newSize hidx (Int.dvd_neg.mpr hd),
    add_sub_cancel_left]
  rw [if_neg (by omega), if_neg (by omega), if_pos (by omega), if_pos List.isEmpty_nil]

/-- An element that becomes smaller in a nested allocator, which gives all its space back. -/
theorem resizeBlock_shrink_nested (ha : a.Ordered) (hidx : idx < a.elements) (hpos : 0 < d)
    (hd : alignmentBlock ∣ d) (hsize : d ≤ a.elementSize idx) (houter : outer ≠ []) :
    resizeBlock outer a idx (a.elementSize idx + -d)
      = (resize outer (a.moveElements (idx + 1) (-d)) (a.blockSize + -(a.freeSpace + d))).map fun r =>
          (r.1, r.2, a.elementSize idx + -d) := by
  have hfree : (a.moveElements (idx + 1) (-d)).freeSpace = a.freeSpace + d := by
    rw [freeSpace_moveElements ha (by omega)]
    omega
  have hempty : outer.isEmpty = false := by
    rw [List.isEmpty_eq_false_iff]
    exact houter
  simp only [resizeBlock, resizeBlockWith, ha.roundUp_newSize hidx (Int.dvd_neg.mpr hd),
    add_sub_cancel_left]
  rw [if_neg (by omega), if_neg (by omega), if_pos (by omega), hempty, if_neg (by decide), hfree,
    moveElements_blockSize, sub_eq_add_neg]
  cases resize outer (a.moveElements (idx + 1) (-d)) (a.blockSize + -(a.freeSpace + d)) <;> rfl

theorem resizeBlock_same (ha : a.Ordered) (hidx : idx < a.elements) :
    resizeBlock outer a idx (a.elementSize idx) = some (a, outer, a.elementSize idx) := by
  have hsize := ha.elementSize_nonneg hidx
  have hround := ha.roundUp_newSize hidx (Int.dvd_zero alignmentBlock)
  rw [add_zero] at hround
  simp only [resizeBlock, resizeBlockWith, hround, sub_self]
  rw [if_neg (by omega), if_neg (by omega), if_neg (by omega)]

/-- Giving back space that is free never fails. -/
theorem resize_shrink (h : Sound outer a) (houter : outer ≠ []) (hd : alignmentBlock ∣ d)
    (hnonneg : 0 ≤ d) (hfree : d ≤ a.freeSpace) :
    ∃ outer', resize outer a (a.blockSize + -d)
        = some ({ a with blockSize := a.blockSize + -d }, outer')
      ∧ OuterWithin 0 outer outer' ∧ Sound outer' { a with blockSize := a.blockSize + -d } := by
  induction outer generalizing a d with
  | nil => exact absurd rfl houter
  | cons frame rest ih =>
      obtain ⟨idx, parent⟩ := frame
      obtain ⟨ha, hidx, hfill, hrest⟩ := h
      have hparent := hrest.ordered
      have ha' := ha.withBlockSize (Int.dvd_neg.mpr hd) (by omega)
      have hused := ha.used_nonneg
      rw [resize_cons, ← hfill]
      obtain rfl | hpos := hnonneg.eq_or_lt
      · rw [neg_zero, add_zero, resizeBlock_same hparent hidx, hfill]
        exact ⟨_, rfl, OuterWithin.refl le_rfl _, ha, hidx, hfill, hrest⟩
      · have hparentFree := hparent.fits
        have hmove := hparent.moveElements hidx (Int.dvd_neg.mpr hd) (by omega) (by omega)
        cases rest with
        | nil =>
            rw [resizeBlock_shrink_top hparent hidx hpos hd (by omega), hfill]
            refine ⟨_, rfl, .cons ?_ .nil, Sound.cons hidx hfill hrest ha' hmove⟩
            change parent.blockSize - parent.blockSize ≤ 0
            omega
        | cons frame rest =>
            rw [resizeBlock_shrink_nested hparent hidx hpos hd (by omega) (List.cons_ne_nil _ _)]
            have hfree' : (parent.moveElements (idx + 1) (-d)).freeSpace = parent.freeSpace + d := by
              rw [freeSpace_moveElements hparent (by omega)]
              omega
            obtain ⟨rest', heq, hwithin, hrest'⟩ := ih (hrest.replace hmove rfl)
              (List.cons_ne_nil _ _) (Int.dvd_add hparent.freeSpace_aligned hd) (by omega)
              hfree'.ge
            rw [moveElements_blockSize] at heq
            rw [heq, hfill]
            refine ⟨_, rfl, .cons ?_ hwithin, ha', ?_, ?_, hrest'⟩
            · change parent.blockSize + -(parent.freeSpace + d) - parent.blockSize ≤ 0
              omega
            · change idx < (parent.moveElements (idx + 1) (-d)).elements
              rw [moveElements_elements]
              exact hidx
            · change (parent.moveElements (idx + 1) (-d)).elementSize idx = a.blockSize + -d
              rw [elementSize_moveElements hidx, hfill]

theorem freeSpace_nonneg (h : Sound outer a) : ∀ frame ∈ outer, 0 ≤ frame.2.freeSpace := by
  induction outer generalizing a with
  | nil => simp
  | cons frame rest ih =>
      intro frame' hframe
      obtain ⟨-, -, -, hrest⟩ := h
      obtain rfl | hframe := List.mem_cons.mp hframe
      · exact hrest.ordered.fits
      · exact ih hrest frame' hframe

theorem le_computeFreeSpaceUp (h : Sound outer a) (hcovers : Covers outer d) :
    a.freeSpace + d ≤ computeFreeSpaceUp outer a := by
  obtain ⟨frame, hframe, hle⟩ := hcovers
  have hnonneg := freeSpace_nonneg h
  have hsum : frame.2.freeSpace ≤ (outer.map fun frame => frame.2.freeSpace).sum := by
    refine List.single_le_sum ?_ _ (List.mem_map_of_mem hframe)
    intro n hn
    obtain ⟨frame', hframe', rfl⟩ := List.mem_map.mp hn
    exact hnonneg frame' hframe'
  rw [computeFreeSpaceUp]
  omega

theorem freeSpace_le_computeFreeSpaceUp (h : Sound outer a) :
    a.freeSpace ≤ computeFreeSpaceUp outer a := by
  have hsum : 0 ≤ (outer.map fun frame => frame.2.freeSpace).sum := by
    refine List.sum_nonneg fun n hn => ?_
    obtain ⟨frame, hframe, rfl⟩ := List.mem_map.mp hn
    exact freeSpace_nonneg h frame hframe
  rw [computeFreeSpaceUp]
  omega

/-- An element that does not grow is always given its size. -/
theorem resizeBlock_smaller (h : Sound outer a) (hidx : idx < a.elements) (hnonneg : 0 ≤ d)
    (hd : alignmentBlock ∣ d) (hsize : d ≤ a.elementSize idx) :
    ∃ a' outer', resizeBlock outer a idx (a.elementSize idx + -d)
        = some (a', outer', a.elementSize idx + -d)
      ∧ GrowsWithin 0 outer a outer' a' ∧ Sound outer' a' := by
  have ha := h.ordered
  have hfree := ha.fits
  obtain rfl | hpos := hnonneg.eq_or_lt
  · rw [neg_zero, add_zero, resizeBlock_same ha hidx]
    exact ⟨a, outer, rfl, ⟨by omega, OuterWithin.refl le_rfl outer⟩, h⟩
  · have hmove := ha.moveElements hidx (Int.dvd_neg.mpr hd) (by omega) (by omega)
    cases outer with
    | nil =>
        rw [resizeBlock_shrink_top ha hidx hpos hd hsize]
        refine ⟨_, _, rfl, ⟨?_, .nil⟩, hmove⟩
        rw [moveElements_blockSize]
        omega
    | cons frame rest =>
        have hfree' : (a.moveElements (idx + 1) (-d)).freeSpace = a.freeSpace + d := by
          rw [freeSpace_moveElements ha (by omega)]
          omega
        obtain ⟨outer', heq, hwithin, hsound⟩ := resize_shrink (h.replace hmove rfl)
          (List.cons_ne_nil _ _) (Int.dvd_add ha.freeSpace_aligned hd) (by omega) hfree'.ge
        rw [moveElements_blockSize] at heq
        rw [resizeBlock_shrink_nested ha hidx hpos hd hsize (List.cons_ne_nil _ _), heq]
        refine ⟨_, _, rfl, ⟨?_, hwithin⟩, hsound⟩
        change a.blockSize + -(a.freeSpace + d) - a.blockSize ≤ 0
        omega

/-- An element that grows within the free space of its allocator. -/
theorem resizeBlock_covered (h : Sound outer a) (hidx : idx < a.elements) (hpos : 0 < d)
    (hd : alignmentBlock ∣ d) (hfits : d ≤ a.freeSpace) :
    ∃ a' outer', resizeBlock outer a idx (a.elementSize idx + d)
        = some (a', outer', a.elementSize idx + d)
      ∧ GrowsWithin 0 outer a outer' a' ∧ Sound outer' a' := by
  have hsize := h.ordered.elementSize_nonneg hidx
  rw [resizeBlock_local h.ordered hidx hpos hd hfits]
  have hmove := h.ordered.moveElements hidx hd (by omega) hfits
  refine ⟨_, _, rfl, ⟨?_, OuterWithin.refl le_rfl outer⟩, h.replace hmove rfl⟩
  rw [moveElements_blockSize]
  omega

theorem Sound.enlarged (h : Sound outer { a with blockSize := a.blockSize + d }) {growth : Int}
    (hidx : idx < a.elements) (hpos : 0 ≤ growth) (hd : alignmentBlock ∣ growth)
    (hfits : growth ≤ a.freeSpace + d) :
    Sound outer ({ a with blockSize := a.blockSize + d }.moveElements (idx + 1) growth) := by
  have hsize := h.ordered.elementSize_nonneg hidx
  exact h.replace (h.ordered.moveElements hidx hd (by omega)
    (by rw [freeSpace_withBlockSize]; exact hfits)) rfl

/-- An element that grows beyond it takes all of its growth from outside. -/
theorem resizeBlock_uncovered (h : Sound outer a) (hidx : idx < a.elements) (hpos : 0 < d)
    (hd : alignmentBlock ∣ d) (hfits : a.freeSpace < d) :
    (¬ Covers outer d → resizeBlock outer a idx (a.elementSize idx + d) = none)
      ∧ (Covers outer d → ∃ a' outer', resizeBlock outer a idx (a.elementSize idx + d)
          = some (a', outer', a.elementSize idx + d)
        ∧ a'.blockSize = a.blockSize + d ∧ GrowsWithin d outer a outer' a' ∧ Sound outer' a') := by
  obtain ⟨hnone, hsome⟩ := resize_grow h hpos hd
  have hfree := h.ordered.fits
  rw [resizeBlock_enlarge h.ordered hidx hpos hd hfits]
  constructor
  · intro hnot
    rw [hnone hnot]
    rfl
  · intro hcovers
    obtain ⟨outer', heq, hwithin, hsound⟩ := hsome hcovers
    rw [heq]
    refine ⟨_, outer', rfl, rfl, ⟨?_, hwithin⟩, hsound.enlarged hidx hpos.le hd (by omega)⟩
    change a.blockSize + d - a.blockSize ≤ d
    omega

theorem GrowsWithin.mono {bound bound' : Int} (h : GrowsWithin bound outer a outer' a')
    (hle : bound ≤ bound') : GrowsWithin bound' outer a outer' a' :=
  ⟨h.1.trans hle, h.2.imp fun _ _ hgrow => hgrow.trans hle⟩

theorem accounted_of_none {growth : Int} (hup : computeFreeSpaceUp outer a < growth) :
    Accounted outer a growth none := by
  refine ⟨?_, by simp⟩
  simp only [Option.isSome_none, Bool.false_eq_true, false_iff]
  omega

theorem accounted_of_some {growth size : Int} (hup : growth ≤ computeFreeSpaceUp outer a)
    (hgrows : GrowsWithin (max 0 (growth - a.freeSpace)) outer a outer' a') :
    Accounted outer a growth (some (a', outer', size)) := by
  refine ⟨?_, ?_⟩
  · simpa using hup
  · intro a'' outer'' size' heq
    cases heq
    exact hgrows

theorem resizeBlock_accounted_iff (h : Sound outer a) (hidx : idx < a.elements)
    (hd : alignmentBlock ∣ d) (hsize : 0 ≤ a.elementSize idx + d) :
    Accounted outer a d (resizeBlock outer a idx (a.elementSize idx + d)) ↔ ResizeOk outer a d := by
  have hfree := h.ordered.fits
  have hup := freeSpace_le_computeFreeSpaceUp h
  obtain hneg | hpos := le_or_gt d 0
  · -- an element that does not grow
    obtain ⟨a', outer', heq, hgrows, -⟩ := resizeBlock_smaller h hidx (d := -d) (by omega)
      (Int.dvd_neg.mpr hd) (by omega)
    rw [neg_neg] at heq
    rw [heq]
    refine iff_of_true (accounted_of_some (by omega) (hgrows.mono (le_max_left _ _))) (Or.inl ?_)
    omega
  · by_cases hfits : d ≤ a.freeSpace
    · obtain ⟨a', outer', heq, hgrows, -⟩ := resizeBlock_covered h hidx hpos hd hfits
      rw [heq]
      exact iff_of_true (accounted_of_some (by omega) (hgrows.mono (le_max_left _ _))) (Or.inl hfits)
    · obtain ⟨hnone, hsome⟩ := resizeBlock_uncovered h hidx hpos hd (by omega)
      by_cases hcovers : Covers outer d
      · -- all of the growth comes from outside, so nothing may be left inside
        obtain ⟨a', outer', heq, hblock, hgrows, -⟩ := hsome hcovers
        have hlarge := le_computeFreeSpaceUp h hcovers
        rw [heq]
        constructor
        · rintro ⟨-, haccount⟩
          obtain ⟨hgrow, -⟩ := haccount a' outer' _ rfl
          rw [max_eq_right (by omega)] at hgrow
          exact Or.inr (Or.inl ⟨by omega, hcovers⟩)
        · rintro (hlocal | ⟨hzero, -⟩ | hlack)
          · exact absurd hlocal hfits
          · refine accounted_of_some (by omega) (hgrows.mono ?_)
            rw [hzero, sub_zero]
            exact le_max_right _ _
          · omega
      · rw [hnone hcovers]
        constructor
        · rintro ⟨hiff, -⟩
          refine Or.inr (Or.inr ?_)
          by_contra hge
          have hfalse := hiff.mpr (by omega)
          cases hfalse
        · rintro (hlocal | ⟨-, hcovers'⟩ | hlack)
          · exact absurd hlocal hfits
          · exact absurd hcovers' hcovers
          · exact accounted_of_none hlack

theorem allocate_local {size : Int} (hround : alignmentBlock ∣ size) (hfits : size ≤ a.freeSpace) :
    allocate outer a idx size = some (a.moveElements (idx + 1) size, outer, size) := by
  simp only [allocate, roundUpBytesToAlignmentBlocks_of_dvd hround]
  rw [if_neg (by omega)]

theorem allocate_enlarge {size : Int} (ha : a.Ordered) (hround : alignmentBlock ∣ size)
    (hfits : a.freeSpace < size) :
    allocate outer a idx size = (resize outer a (a.blockSize + (size - a.freeSpace))).map fun r =>
      (r.1.moveElements (idx + 1) size, r.2, size) := by
  have henlarge : roundUpBytesToAlignmentBlocks (a.blockSize + (size - a.freeSpace))
      = a.blockSize + (size - a.freeSpace) :=
    roundUpBytesToAlignmentBlocks_of_dvd
      (Int.dvd_add ha.blockSize_aligned (Int.dvd_sub hround ha.freeSpace_aligned))
  simp only [allocate, enlarge, roundUpBytesToAlignmentBlocks_of_dvd hround]
  rw [if_pos hfits, henlarge]
  cases resize outer a (a.blockSize + (size - a.freeSpace)) <;> rfl

theorem allocate_accounted_iff (h : Sound outer a) {size : Int} (hround : alignmentBlock ∣ size) :
    Accounted outer a size (allocate outer a idx size) ↔ AllocateOk outer a size := by
  have hup := freeSpace_le_computeFreeSpaceUp h
  by_cases hfits : size ≤ a.freeSpace
  · rw [allocate_local hround hfits]
    refine iff_of_true (accounted_of_some (by omega) ⟨?_, ?_⟩) (Or.inl hfits)
    · rw [moveElements_blockSize]
      omega
    · exact OuterWithin.refl (le_max_left _ _) outer
  · rw [allocate_enlarge h.ordered hround (by omega)]
    obtain ⟨hnone, hsome⟩ := resize_grow h (d := size - a.freeSpace) (by omega)
      (Int.dvd_sub hround h.ordered.freeSpace_aligned)
    by_cases hcovers : Covers outer (size - a.freeSpace)
    · obtain ⟨outer', heq, hwithin, -⟩ := hsome hcovers
      have hlarge := le_computeFreeSpaceUp h hcovers
      rw [heq]
      refine iff_of_true (accounted_of_some (by omega) ⟨?_, ?_⟩) (Or.inr (Or.inl hcovers))
      · change a.blockSize + (size - a.freeSpace) - a.blockSize ≤ _
        rw [add_sub_cancel_left]
        exact le_max_right _ _
      · exact hwithin.imp fun _ _ hgrow => hgrow.trans (le_max_right _ _)
    · rw [hnone hcovers]
      constructor
      · rintro ⟨hiff, -⟩
        refine Or.inr (Or.inr ?_)
        by_contra hge
        have hfalse := hiff.mpr (by omega)
        cases hfalse
      · rintro (hlocal | hcovers' | hlack)
        · exact absurd hlocal hfits
        · exact absurd hcovers' hcovers
        · exact accounted_of_none hlack

/-- The layout survives a change of size. -/
theorem Sound.resizeBlock (h : Sound outer a) (hidx : idx < a.elements) {newSize size : Int}
    (hsize : 0 ≤ newSize) (hround : alignmentBlock ∣ newSize)
    (hok : PackedAllocator.resizeBlock outer a idx newSize = some (a', outer', size)) :
    Sound outer' a' := by
  obtain ⟨d, rfl⟩ : ∃ d, newSize = a.elementSize idx + d := ⟨newSize - a.elementSize idx, by omega⟩
  have hd : alignmentBlock ∣ d :=
    (Int.dvd_add_right (h.ordered.elementSize_aligned hidx)).mp hround
  obtain hneg | hpos := le_or_gt d 0
  · obtain ⟨b, outer'', heq, -, hsound⟩ := resizeBlock_smaller h hidx (d := -d) (by omega)
      (Int.dvd_neg.mpr hd) (by omega)
    rw [neg_neg, hok] at heq
    cases heq
    exact hsound
  · by_cases hfits : d ≤ a.freeSpace
    · obtain ⟨b, outer'', heq, -, hsound⟩ := resizeBlock_covered h hidx hpos hd hfits
      rw [hok] at heq
      cases heq
      exact hsound
    · obtain ⟨hnone, hsome⟩ := resizeBlock_uncovered h hidx hpos hd (by omega)
      by_cases hcovers : Covers outer d
      · obtain ⟨b, outer'', heq, -, -, hsound⟩ := hsome hcovers
        rw [hok] at heq
        cases heq
        exact hsound
      · rw [hnone hcovers] at hok
        cases hok

/-- The layout survives an allocation. -/
theorem Sound.allocate (h : Sound outer a) (hidx : idx < a.elements) {newSize size : Int}
    (hsize : 0 ≤ newSize) (hround : alignmentBlock ∣ newSize)
    (hok : PackedAllocator.allocate outer a idx newSize = some (a', outer', size)) :
    Sound outer' a' := by
  have hold := h.ordered.elementSize_nonneg hidx
  by_cases hfits : newSize ≤ a.freeSpace
  · rw [allocate_local hround hfits] at hok
    cases hok
    exact h.replace (h.ordered.moveElements hidx hround (by omega) hfits) rfl
  · rw [allocate_enlarge h.ordered hround (by omega)] at hok
    obtain ⟨hnone, hsome⟩ := resize_grow h (d := newSize - a.freeSpace) (by omega)
      (Int.dvd_sub hround h.ordered.freeSpace_aligned)
    by_cases hcovers : Covers outer (newSize - a.freeSpace)
    · obtain ⟨outer'', heq, -, hsound⟩ := hsome hcovers
      rw [heq] at hok
      cases hok
      exact hsound.enlarged hidx hsize hround (by omega)
    · rw [hnone hcovers] at hok
      cases hok

/-- The space is accounted for just where the pieces of free space on the way up do not have to be
put together. -/
theorem space_accounted_iff (h : Sound outer a) (hidx : idx < a.elements) {size : Int}
    (hsize : 0 ≤ size) (hround : alignmentBlock ∣ size) :
    (Accounted outer a (size - a.elementSize idx) (resizeBlock outer a idx size)
        ↔ ResizeOk outer a (size - a.elementSize idx))
      ∧ (Accounted outer a size (allocate outer a idx size) ↔ AllocateOk outer a size) := by
  refine ⟨?_, allocate_accounted_iff h hround⟩
  have hd : alignmentBlock ∣ size - a.elementSize idx :=
    Int.dvd_sub hround (h.ordered.elementSize_aligned hidx)
  have hnew : a.elementSize idx + (size - a.elementSize idx) = size := by omega
  have hiff := resizeBlock_accounted_iff h hidx hd (by omega)
  rwa [hnew] at hiff

theorem roundUpBytesToAlignmentBlocks_natCast (n : Nat) :
    roundUpBytesToAlignmentBlocks n = 8 * ((n + 7) / 8 : Nat) := by
  rw [roundUpBytesToAlignmentBlocks, alignmentBlock, Int.tdiv_eq_ediv_of_nonneg (Int.natCast_nonneg n),
    Int.tmod_eq_emod_of_nonneg (Int.natCast_nonneg n)]
  split <;> omega

theorem roundDownBytesToAlignmentBlocks_natCast (n : Nat) :
    roundDownBytesToAlignmentBlocks n = 8 * (n / 8 : Nat) := by
  rw [roundDownBytesToAlignmentBlocks, alignmentBlock,
    Int.tdiv_eq_ediv_of_nonneg (Int.natCast_nonneg n)]
  omega

theorem roundUpBitsToAlignmentBlocks_natCast (n : Nat) :
    roundUpBitsToAlignmentBlocks n = 8 * ((n + 63) / 64 : Nat) := by
  have hbytes : (n : Int).tdiv 8 + (if (n : Int).tmod 8 = 0 then 0 else 1) = ((n + 7) / 8 : Nat) := by
    rw [Int.tdiv_eq_ediv_of_nonneg (Int.natCast_nonneg n),
      Int.tmod_eq_emod_of_nonneg (Int.natCast_nonneg n)]
    split <;> omega
  rw [roundUpBitsToAlignmentBlocks, hbytes, roundUpBytesToAlignmentBlocks_natCast]
  omega

def offsets (blocks : Nat) : Nat := blocks + if blocks % 2 = 1 then 1 else 2

theorem offsets_even (blocks : Nat) : offsets blocks % 2 = 0 := by
  rw [offsets]
  split <;> omega

theorem blockSizeFor_eq (clientArea blocks : Nat) :
    blockSizeFor clientArea blocks =
      (24 + 4 * offsets blocks + 8 * ((blocks + 63) / 64) + 8 * ((clientArea + 7) / 8) : Nat) := by
  have heven := offsets_even blocks
  have hsum : mySize + ((blocks : Int) + if blocks % 2 = 1 then 1 else 2) * 4
      + roundUpBitsToAlignmentBlocks blocks + roundUpBytesToAlignmentBlocks clientArea =
      (24 + 4 * offsets blocks + 8 * ((blocks + 63) / 64) + 8 * ((clientArea + 7) / 8) : Nat) := by
    rw [roundUpBitsToAlignmentBlocks_natCast, roundUpBytesToAlignmentBlocks_natCast, mySize, offsets]
    split <;> omega
  rw [blockSizeFor, hsum, roundUpBytesToAlignmentBlocks_natCast]
  omega

theorem clientAreaFor_eq (blocks client : Nat) :
    clientAreaFor (24 + 4 * offsets blocks + 8 * ((blocks + 63) / 64) + client : Nat) blocks =
      8 * (client / 8 : Nat) := by
  have hrest : ((24 + 4 * offsets blocks + 8 * ((blocks + 63) / 64) + client : Nat) : Int)
      - (mySize + ((blocks : Int) + if blocks % 2 = 1 then 1 else 2) * 4
        + roundUpBitsToAlignmentBlocks blocks) = (client : Nat) := by
    rw [roundUpBitsToAlignmentBlocks_natCast, mySize, offsets]
    split <;> omega
  rw [clientAreaFor, hrest, roundDownBytesToAlignmentBlocks_natCast]

theorem init_layoutSize (blockSize : Int) (blocks : Nat) :
    (init blockSize blocks).layoutSize = 4 * offsets blocks := by
  rw [layoutSize, init, List.length_replicate, offsets]

/-- The bitmap of a new allocator has a bit for every offset. -/
theorem init_bitmapSize (blockSize : Int) (blocks : Nat) :
    (init blockSize blocks).bitmapSize = 8 * ((offsets blocks + 63) / 64 : Nat) := by
  rw [init, ← roundUpBitsToAlignmentBlocks_natCast, offsets]

/-- `block_size` and the static `client_area` count a bit for every element, and `init` one for every
offset. The two roundings differ where the elements fill their last cell. -/
theorem adequate_iff (clientArea blocks : Nat) : Adequate clientArea blocks ↔ blocks % 64 ≠ 0 := by
  have heven := offsets_even blocks
  have hblock : (init (blockSizeFor clientArea blocks) blocks).blockSize =
      (24 + 4 * offsets blocks + 8 * ((blocks + 63) / 64) + 8 * ((clientArea + 7) / 8) : Nat) := by
    rw [init, blockSizeFor_eq]
    dsimp only
    rw [roundDownBytesToAlignmentBlocks_natCast]
    omega
  have hstatic := clientAreaFor_eq blocks (8 * ((clientArea + 7) / 8))
  rw [← blockSizeFor_eq] at hstatic
  have hcells : (offsets blocks + 63) / 64 =
      (blocks + 63) / 64 + if blocks % 64 = 0 then 1 else 0 := by
    rw [offsets]
    split <;> split <;> omega
  simp only [Adequate, RegionsApart, base, PackedAllocator.clientArea, hstatic, hblock,
    init_layoutSize, init_bitmapSize, hcells, mySize, bufferOffset]
  split <;> omega

/-- 64 elements have 66 offsets, and a bitmap of two cells for which no space was asked. -/
theorem adequate_fails : ¬ Adequate 8 64 := by
  intro h
  exact absurd h.1 (by decide)

namespace TwoLevels

def inner : PackedAllocator := ⟨48, 8, [0, 0]⟩

def around : PackedAllocator := ⟨96, 8, [0, 48]⟩

theorem sound : Sound [(0, around)] inner := by
  refine ⟨?_, by decide, by decide, ?_⟩ <;> constructor <;> decide

end TwoLevels

theorem space_accounted_eight :
    (Accounted [(0, TwoLevels.around)] TwoLevels.inner 8
        (resizeBlock [(0, TwoLevels.around)] TwoLevels.inner 0 8)
      ↔ ResizeOk [(0, TwoLevels.around)] TwoLevels.inner 8)
      ∧ (Accounted [(0, TwoLevels.around)] TwoLevels.inner 8
          (PackedAllocator.allocate [(0, TwoLevels.around)] TwoLevels.inner 0 8)
        ↔ AllocateOk [(0, TwoLevels.around)] TwoLevels.inner 8) :=
  (@space_accounted_iff _ _ 0) TwoLevels.sound (by decide) (by decide) (by decide)

/-- Sixteen bytes are free and cannot be had. -/
theorem resizeBlock_sixteen_fails :
    Sound [(0, TwoLevels.around)] TwoLevels.inner
      ∧ ¬ Accounted [(0, TwoLevels.around)] TwoLevels.inner 16
        (resizeBlock [(0, TwoLevels.around)] TwoLevels.inner 0 16) := by
  refine ⟨TwoLevels.sound, fun hclaim => ?_⟩
  have hfree : (16 : Int) ≤ computeFreeSpaceUp [(0, TwoLevels.around)] TwoLevels.inner := by decide
  have hfails : (resizeBlock [(0, TwoLevels.around)] TwoLevels.inner 0 16).isSome = false := by decide
  have hsome := hclaim.1.mpr hfree
  rw [hfails] at hsome
  cases hsome

end PackedAllocator

end Memoria

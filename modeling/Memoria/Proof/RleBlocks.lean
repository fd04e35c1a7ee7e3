import Memoria.Proof.FseSearch
import Memoria.Proof.RleCodes

/-!
# The index of a sequence of runs

A block has the codes that begin in it, so that the blocks in front of it have the codes that begin
in front of it. A search in an index over the blocks ends in the block of the code that it is for.
-/

namespace Memoria.RleSeq

open Lib FseTree

section Blocks

variable (params : Params) (runs : List (Run ℕ))

def cut (block : ℕ) : ℕ := codesBefore params (block * params.bytesPerBlock) 0 runs

def place (k : ℕ) : ℕ := codeLengths params (runs.take k)

def runsOf (block : ℕ) : List (Run ℕ) :=
  (runs.drop (cut params runs block)).take (cut params runs (block + 1) - cut params runs block)

def blockAt (block : ℕ) : Block :=
  ⟨place params runs (cut params runs block) % params.bytesPerBlock % 256,
    codesOf params (place params runs (cut params runs block)) (runsOf params runs block)⟩

def before (block : ℕ) : List ℕ := Run.expand (runs.take (cut params runs block))

def behind (block : ℕ) : List ℕ := Run.expand (runs.drop (cut params runs block))

variable {params runs} {seq : Seq params.symbols} {block : ℕ}

theorem cut_zero : cut params runs 0 = 0 := by
  rw [cut, Nat.zero_mul, codesBefore_of_le (Nat.le_refl 0)]

theorem cut_succ : cut params runs block + codesBefore params ((block + 1) * params.bytesPerBlock)
      (place params runs (cut params runs block)) (runs.drop (cut params runs block)) =
    cut params runs (block + 1) := by
  have hle : block * params.bytesPerBlock ≤ (block + 1) * params.bytesPerBlock :=
    Nat.mul_le_mul_right _ (Nat.le_succ block)
  have hnext := @codesBefore_drop params runs 0 _ _ hle
  rwa [Nat.zero_add] at hnext

theorem cut_le_succ : cut params runs block ≤ cut params runs (block + 1) := by
  rw [← cut_succ]
  exact Nat.le_add_right _ _

theorem runs_take_succ : runs.take (cut params runs block) ++ runsOf params runs block =
    runs.take (cut params runs (block + 1)) := by
  rw [runsOf, ← List.take_add, Nat.add_sub_cancel' cut_le_succ]

theorem place_succ : place params runs (cut params runs block) +
      codeLengths params (runsOf params runs block) =
    place params runs (cut params runs (block + 1)) := by
  rw [place, place, ← codeLengths_append, runs_take_succ]

theorem Seq.Coded.drop (h : seq.Coded params 0 runs) (k : ℕ) :
    seq.Coded params (place params runs k) (runs.drop k) := by
  have hrest : seq.Coded params 0 (runs.take k ++ runs.drop k) := by
    rwa [List.take_append_drop]
  have hcoded := hrest.append
  rwa [Nat.zero_add] at hcoded

/-- The iterators over the blocks come from block to block. -/
theorem Seq.Coded.blocksFrom_eq (h : seq.Coded params 0 runs) (n block : ℕ) :
    seq.blocksFrom params n (min ((block + 1) * params.bytesPerBlock) seq.dataSize)
        (place params runs (cut params runs block)) =
      (List.range' block n).map (blockAt params runs) := by
  induction n generalizing block with
  | zero => rfl
  | succ n ih =>
      have hcoded := h.drop (cut params runs block)
      have hcount : codesBefore params ((block + 1) * params.bytesPerBlock)
          (place params runs (cut params runs block)) (runs.drop (cut params runs block)) =
            cut params runs (block + 1) - cut params runs block := by
        rw [← cut_succ, Nat.add_sub_cancel_left]
      have hcodes := hcoded.codes_eq (Nat.min_le_right ((block + 1) * params.bytesPerBlock) _)
      rw [hcoded.codesBefore_min, hcount, ← runsOf] at hcodes
      have hnext (limit : ℕ) : (if min limit seq.dataSize + params.bytesPerBlock < seq.dataSize then
          min limit seq.dataSize + params.bytesPerBlock else seq.dataSize) =
            min (limit + params.bytesPerBlock) seq.dataSize := by
        split_ifs <;> omega
      rw [Seq.blocksFrom, hcodes, List.range'_succ, List.map_cons, ← ih, hnext, getLast_codesOf,
        place_succ, Nat.add_one_mul (block + 1)]
      rfl

theorem Seq.Coded.blocks_eq (h : seq.Coded params 0 runs) :
    seq.blocks params =
      (List.range (numberOfOffsets params seq.symbolsSize)).map (blockAt params runs) := by
  have hblocks := h.blocksFrom_eq (numberOfOffsets params seq.symbolsSize) 0
  have hfirst : (if seq.dataSize < params.bytesPerBlock then seq.dataSize
      else params.bytesPerBlock) = min ((0 + 1) * params.bytesPerBlock) seq.dataSize := by
    rw [Nat.zero_add, Nat.one_mul]
    split_ifs <;> omega
  have hstart : place params runs (cut params runs 0) = 0 := by rw [cut_zero]; rfl
  rw [hstart, ← hfirst, ← List.range_eq_range'] at hblocks
  exact hblocks

/-- Behind the last block there are no more codes. -/
theorem Seq.Holds.cut_last (h : seq.Holds params runs) :
    cut params runs (numberOfOffsets params seq.symbolsSize) = runs.length := by
  apply h.coded.codesBefore_eq
  have hle := h.data_le
  rw [numberOfOffsets]
  split_ifs with hpos
  · have hall := (divUp_le_iff params.bytes_pos).mp (Nat.le_refl (divUp seq.symbolsSize _))
    rw [Nat.mul_comm] at hall
    omega
  · omega

theorem blockAt_size : (before params runs block).length + (blockAt params runs block).size =
    (before params runs (block + 1)).length := by
  rw [before, before, ← runs_take_succ, Run.expand_append, List.length_append]
  congr 1
  rw [Block.size, blockAt, Run.length_expand, map_codesOf fun run => run.length]

theorem blockAt_sum (symbol : ℕ) :
    (before params runs block).count symbol + (blockAt params runs block).sum symbol =
      (before params runs (block + 1)).count symbol := by
  rw [before, before, ← runs_take_succ, Run.expand_append, List.count_append]
  congr 1
  rw [Block.sum, blockAt, Run.count_expand,
    map_codesOf fun run => if run.symbol = symbol then run.length else 0]

theorem before_append_behind : before params runs block ++ behind params runs block =
    Run.expand runs := by
  rw [before, behind, ← Run.expand_append, List.take_append_drop]

theorem before_zero : before params runs 0 = [] := by
  rw [before, cut_zero]
  rfl

end Blocks

section Index

variable {params : Params} {runs : List (Run ℕ)} {seq : Seq params.symbols}
variable {index : Index params.symbols} (h : seq.Holds params runs) (hindex : seq.index = some index)

include h

/-- The number of blocks. -/
theorem Seq.Holds.length_blocks :
    (seq.blocks params).length = numberOfOffsets params seq.symbolsSize := by
  rw [h.coded.blocks_eq, List.length_map, List.length_range]

theorem Seq.Holds.blocks_getElem? {block : ℕ} {b : Block} (hb : (seq.blocks params)[block]? = some b) :
    b = blockAt params runs block := by
  rw [h.coded.blocks_eq, List.getElem?_map, Option.map_eq_some_iff] at hb
  obtain ⟨i, hi, rfl⟩ := hb
  obtain ⟨hlt, rfl⟩ := List.getElem?_eq_some_iff.mp hi
  rw [List.getElem_range]

theorem Seq.Holds.before_last : before params runs (seq.blocks params).length = Run.expand runs := by
  rw [before, h.length_blocks, h.cut_last, List.take_length]

theorem Seq.Holds.sizes_steps {block v : ℕ}
    (hv : (Tree.column ((seq.blocks params).map fun b (_ : Fin 1) => b.size) 0)[block]? = some v) :
    (before params runs block).length + v = (before params runs (block + 1)).length := by
  rw [Tree.column, List.map_map, List.getElem?_map, Option.map_eq_some_iff] at hv
  obtain ⟨b, hb, rfl⟩ := hv
  rw [h.blocks_getElem? hb]
  exact blockAt_size

theorem Seq.Holds.sums_steps {symbol : Fin params.symbols} {block v : ℕ}
    (hv : (Tree.column ((seq.blocks params).map fun b (s : Fin params.symbols) => b.sum s)
      symbol)[block]? = some v) :
    (before params runs block).count symbol.val + v =
      (before params runs (block + 1)).count symbol.val := by
  rw [Tree.column, List.map_map, List.getElem?_map, Option.map_eq_some_iff] at hv
  obtain ⟨b, hb, rfl⟩ := hv
  rw [h.blocks_getElem? hb]
  exact blockAt_sum symbol

include hindex

theorem Seq.Holds.sizeIndex_sumTo {block : ℕ} (hblock : block ≤ (seq.blocks params).length) :
    index.sizeIndex.sumTo params.tree 0 block = some (before params runs block).length := by
  have hsizes := (h.index index hindex).sizes
  have hlength : block ≤ index.sizeIndex.size := by
    rwa [← hsizes.length_column 0, Tree.column, List.length_map, List.length_map]
  rw [Tree.sumTo, hsizes.sumFromTo_eq 0 0 hlength, rangeSum_eq_of_steps _
    (by rw [before_zero, List.length_nil]) (fun _ _ => h.sizes_steps)
    (by rwa [hsizes.length_column 0])]

theorem Seq.Holds.sumIndex_size : index.sumIndex.size = (seq.blocks params).length := by
  have hsums := (h.index index hindex).sums
  rw [hsums.carries.size_eq, List.length_map]

theorem Seq.Holds.sumIndex_sumTo (symbol : Fin params.symbols) {block : ℕ}
    (hblock : block ≤ (seq.blocks params).length) :
    index.sumIndex.sumTo params.tree symbol block =
      some ((before params runs block).count symbol.val) := by
  have hsums := (h.index index hindex).sums
  rw [← h.sumIndex_size hindex] at hblock
  rw [Tree.sumTo, hsums.sumFromTo_eq symbol 0 hblock, rangeSum_eq_of_steps _
    (by rw [before_zero, List.count_nil]) (fun _ _ => h.sums_steps)
    (by rwa [hsums.length_column symbol])]

theorem Seq.Holds.sumIndex_sum (symbol : Fin params.symbols) :
    index.sumIndex.sum params.tree symbol = some ((Run.expand runs).count symbol.val) := by
  have hsums := (h.index index hindex).sums
  have hlength := hsums.length_column symbol
  rw [h.sumIndex_size hindex] at hlength
  rw [hsums.sum_eq symbol, ← rangeSum_all _ (Nat.le_refl _), rangeSum_eq_of_steps _
    (by rw [before_zero, List.count_nil]) (fun _ _ => h.sums_steps) (Nat.le_refl _), hlength,
    h.before_last]

/-- The block of a position. -/
theorem Seq.Holds.sizeIndex_findGt {p : ℕ} (hp : p < seq.size) :
    ∃ block < (seq.blocks params).length,
      index.sizeIndex.findGt params.tree 0 p = ⟨block, (before params runs block).length⟩ ∧
        (before params runs block).length ≤ p ∧ p < (before params runs (block + 1)).length := by
  have hsizes := (h.index index hindex).sizes
  have hlength := hsizes.length_column 0
  have hall : index.sizeIndex.size = (seq.blocks params).length := by
    rw [hsizes.carries.size_eq, List.length_map]
  obtain ⟨block, hle, hscan, hmiss, hhit⟩ := sumScan_of_steps (findGTWalker p)
    (by rw [before_zero, List.length_nil]) (fun _ _ => h.sizes_steps)
  have hlt : block < (seq.blocks params).length := by
    rw [hlength, hall] at hle
    apply Nat.lt_of_le_of_ne hle
    rintro rfl
    have hpos : 0 < (seq.blocks params).length := by
      by_contra hzero
      have hempty := h.before_last
      rw [Nat.eq_zero_of_not_pos hzero, before_zero] at hempty
      rw [h.size_eq, ← hempty] at hp
      exact absurd hp (Nat.not_lt_zero p)
    have hlast := hmiss _ (Nat.sub_one_lt_of_lt hpos)
    rw [Nat.sub_add_cancel hpos, h.before_last, ← h.size_eq, findGTWalker,
      decide_eq_false_iff_not] at hlast
    exact hlast hp
  refine ⟨block, hlt, ?_, ?_, ?_⟩
  · rw [Tree.findGt, hsizes.find_eq (findGTWalker_mono p) 0 (fun _ _ => Nat.zero_le _), scanFw,
      List.drop_zero, hscan, Nat.zero_add]
  · cases block with
    | zero => rw [before_zero]; exact Nat.zero_le p
    | succ block =>
        have hlast := hmiss block (Nat.lt_succ_self block)
        rw [findGTWalker, decide_eq_false_iff_not] at hlast
        exact Nat.le_of_not_lt hlast
  · have hnext := hhit (by rwa [hlength, hall])
    rwa [findGTWalker, decide_eq_true_eq] at hnext

/-- The block of an occurrence, or the end of the index. -/
theorem Seq.Holds.sumIndex_findGe (symbol : Fin params.symbols) {rank : ℕ} (hrank : 0 < rank) :
    ∃ block ≤ (seq.blocks params).length,
      index.sumIndex.findGe params.tree symbol rank =
        ⟨block, (before params runs block).count symbol.val⟩ ∧
      (before params runs block).count symbol.val < rank ∧
        (block < (seq.blocks params).length →
          rank ≤ (before params runs (block + 1)).count symbol.val) := by
  have hsums := (h.index index hindex).sums
  have hlength := hsums.length_column symbol
  rw [h.sumIndex_size hindex] at hlength
  obtain ⟨block, hle, hscan, hmiss, hhit⟩ := sumScan_of_steps (findGEWalker rank)
    (by rw [before_zero, List.count_nil]) (fun _ _ => @h.sums_steps _ _ _ symbol _ _)
  rw [hlength] at hle hhit
  refine ⟨block, hle, ?_, ?_, fun hlt => ?_⟩
  · rw [Tree.findGe, hsums.find_eq (findGEWalker_mono rank) symbol (fun _ _ => Nat.zero_le _), scanFw,
      List.drop_zero, hscan, Nat.zero_add]
  · cases block with
    | zero => rw [before_zero]; exact hrank
    | succ block =>
        have hlast := hmiss block (Nat.lt_succ_self block)
        rw [findGEWalker, decide_eq_false_iff_not] at hlast
        exact Nat.lt_of_not_le hlast
  · have hnext := hhit hlt
    rwa [findGEWalker, decide_eq_true_eq] at hnext

/-- The offset of a block that has codes leads to the first one. -/
theorem Seq.Holds.blockStart_eq {block : ℕ} (hblock : block < (seq.blocks params).length)
    (hcodes : cut params runs block < cut params runs (block + 1)) :
    Seq.blockStart params index block = place params runs (cut params runs block) ∧
      place params runs (cut params runs block) / params.bytesPerBlock = block := by
  have hlt : cut params runs block < runs.length := Nat.lt_of_lt_of_le hcodes codesBefore_le
  have hlow := @le_of_codesBefore params runs 0 _ hlt
  have hnear := @lt_of_codesBefore params runs 0 (block * params.bytesPerBlock) h.coded.valid
    (by omega)
  have hhigh := @lt_limit_of_codesBefore params runs 0 _ _ hcodes
  rw [Nat.zero_add] at hlow hnear hhigh
  change block * params.bytesPerBlock ≤ place params runs (cut params runs block) at hlow
  change place params runs (cut params runs block) < block * params.bytesPerBlock + 8 at hnear
  change place params runs (cut params runs block) < (block + 1) * params.bytesPerBlock at hhigh
  obtain ⟨o, ho⟩ := Nat.exists_eq_add_of_le hlow
  rw [ho, Nat.add_one_mul] at hhigh
  rw [ho] at hnear
  have hoffset : o % params.bytesPerBlock = o := Nat.mod_eq_of_lt (by omega)
  have hget : index.offsets.getD block 0 = o := by
    rw [(h.index index hindex).offsets, h.coded.blocks_eq, List.getD_eq_getElem?_getD, List.getElem?_map,
      List.getElem?_map, List.getElem?_range (by rwa [← h.length_blocks]), Option.map_some,
      Option.map_some, Option.getD_some, blockAt, ho, Nat.mul_comm, Nat.mul_add_mod, hoffset,
      Nat.mod_eq_of_lt (by omega)]
  rw [Seq.blockStart, hget, ho]
  refine ⟨rfl, ?_⟩
  rw [Nat.mul_comm, Nat.mul_add_div params.bytes_pos, Nat.div_eq_of_lt (by omega), Nat.add_zero]

end Index

end Memoria.RleSeq

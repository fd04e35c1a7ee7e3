import Memoria.Proof.RleBlocks
import Memoria.Proof.RleLoops

/-!
# The queries of a sequence of runs

Every query is a loop over the codes from the beginning of the data, or from the block that the index
leads to. Both find what a scan of the symbols finds.
-/

namespace Memoria.RleSeq

open Lib Run

variable {params : Params} {runs : List (Run ℕ)} {seq : Seq params.symbols}

theorem Seq.Coded.pos_lengths {pos : ℕ} (h : seq.Coded params pos runs) :
    ∀ run ∈ runs, 0 < run.length :=
  fun run hrun => (h.valid run hrun).2.1

theorem Seq.Holds.rest_eq (h : seq.Holds params runs) (k : ℕ) :
    seq.rest params (place params runs k) = codesOf params (place params runs k) (runs.drop k) :=
  (h.coded.drop k).rest_eq

theorem Seq.Holds.rest_zero (h : seq.Holds params runs) : seq.rest params 0 = codesOf params 0 runs :=
  h.coded.rest_eq

theorem length_expand_take_mono {j k : ℕ} (hle : j ≤ k) :
    (expand (runs.take j)).length ≤ (expand (runs.take k)).length := by
  have hsplit := List.take_append_drop j (runs.take k)
  rw [List.take_take, Nat.min_eq_left hle] at hsplit
  rw [← hsplit, expand_append, List.length_append]
  exact Nat.le_add_right _ _

theorem length_expand_take_succ {k : ℕ} {run : Run ℕ} {back : List (Run ℕ)}
    (h : runs.drop k = run :: back) :
    (expand (runs.take (k + 1))).length = (expand (runs.take k)).length + run.length := by
  rw [List.take_add, h, expand_append, List.length_append, List.take_succ_cons, List.take_zero,
    length_expand_cons, expand_nil, List.length_nil, Nat.add_zero]

theorem lt_length_of_drop {k : ℕ} {run : Run ℕ} {back : List (Run ℕ)} (h : runs.drop k = run :: back) :
    k < runs.length := by
  have hlength := congrArg List.length h
  rw [List.length_drop, List.length_cons] at hlength
  omega

theorem place_drop_succ {k : ℕ} {run : Run ℕ} {back : List (Run ℕ)} (h : runs.drop k = run :: back) :
    place params runs (k + 1) = place params runs k + codeLength params run := by
  have hsingle : codeLengths params [run] = codeLength params run := List.sum_singleton
  rw [place, place, List.take_add, h, codeLengths_append, List.take_succ_cons, List.take_zero, hsingle]

theorem place_mono {j k : ℕ} (hle : j ≤ k) : place params runs j ≤ place params runs k := by
  have hsplit := List.take_append_drop j (runs.take k)
  rw [List.take_take, Nat.min_eq_left hle] at hsplit
  rw [place, place, ← hsplit, codeLengths_append]
  exact Nat.le_add_right _ _

/-- The loop from a code on finds the run of a position. -/
theorem Seq.Holds.locate (h : seq.Holds params runs) (j : ℕ) {p : ℕ} (hp : p < seq.size)
    (hj : (expand (runs.take j)).length ≤ p) :
    ∃ location, locateRun (p - (expand (runs.take j)).length) (expand (runs.take j)).length
        (seq.rest params (place params runs j)) 0 = some location ∧ Located params runs p location ∧
      location.blockBase = (expand (runs.take j)).length ∧
      ∃ k, j ≤ k ∧ (expand (runs.take k)).length ≤ p ∧ location.dataPos = place params runs k := by
  have hlength : (expand (runs.take j)).length + (expand (runs.drop j)).length = seq.size := by
    rw [h.size_eq, ← List.length_append, ← expand_append, List.take_append_drop]
  obtain ⟨k, run, back, hruns, hle, hlt, hlocate⟩ := @locateRun_spec params (runs.drop j)
    (place params runs j) 0 (expand (runs.take j)).length (p - (expand (runs.take j)).length) (by omega)
  rw [Nat.zero_add, Nat.zero_add, ← h.rest_eq j] at hlocate
  have htake : runs.take (j + k) = runs.take j ++ (runs.drop j).take k := List.take_add
  have hfront : (expand (runs.take (j + k))).length =
      (expand (runs.take j)).length + (expand ((runs.drop j).take k)).length := by
    rw [htake, expand_append, List.length_append]
  have hplace : place params runs (j + k) =
      place params runs j + codeLengths params ((runs.drop j).take k) := by
    rw [place, htake, codeLengths_append, place]
  refine ⟨_, hlocate, ⟨⟨j + k, back, by rw [← List.drop_drop, hruns], hplace.symm, hfront.symm⟩, rfl, ?_,
    ?_, rfl⟩, rfl, j + k, Nat.le_add_right j k, by omega, hplace.symm⟩
  · dsimp only
    omega
  · dsimp only
    omega

/-- A position has one run. -/
theorem Located.unique {p : ℕ} {location location' : Location} (h : Located params runs p location)
    (h' : Located params runs p location') :
    location.dataPos = location'.dataPos ∧ location.dataLength = location'.dataLength ∧
      location.localIdx = location'.localIdx ∧ location.run = location'.run ∧
      location.blockBase + location.runBase = location'.blockBase + location'.runBase := by
  obtain ⟨k, back, hruns, hdata, hbase⟩ := h.run
  obtain ⟨k', back', hruns', hdata', hbase'⟩ := h'.run
  have hpos := h.pos_eq
  have hpos' := h'.pos_eq
  have hlt := h.localIdx_lt
  have hlt' := h'.localIdx_lt
  have hk : k = k' := by
    by_contra hne
    rcases Nat.lt_or_gt_of_ne hne with hless | hgreater
    · have hmono := @length_expand_take_mono runs (k + 1) k' hless
      rw [length_expand_take_succ hruns] at hmono
      omega
    · have hmono := @length_expand_take_mono runs (k' + 1) k hgreater
      rw [length_expand_take_succ hruns'] at hmono
      omega
  subst hk
  have hrun : location.run = location'.run := (List.cons.inj (hruns.symm.trans hruns')).1
  refine ⟨hdata.trans hdata'.symm, ?_, ?_, hrun, hbase.trans hbase'.symm⟩
  · rw [h.dataLength_eq, h'.dataLength_eq, hrun]
  · omega

/-- The symbols from the run of a position on. -/
theorem Located.drop_eq {p : ℕ} {location : Location} (h : Located params runs p location) :
    ∃ k back, runs.drop k = location.run :: back ∧ location.dataPos = place params runs k ∧
      location.blockBase + location.runBase = (expand (runs.take k)).length ∧
      (expand runs).drop p = (expand (location.run :: back)).drop location.localIdx := by
  obtain ⟨k, back, hruns, hdata, hbase⟩ := h.run
  refine ⟨k, back, hruns, hdata, hbase, ?_⟩
  have hsplit : expand runs = expand (runs.take k) ++ expand (location.run :: back) := by
    rw [← hruns, ← expand_append, List.take_append_drop]
  rw [hsplit, List.drop_append, ← hbase, ← h.pos_eq, Nat.add_sub_cancel_left,
    List.drop_of_length_le (by omega), List.nil_append]

theorem Located.symbol_eq {p : ℕ} {location : Location} (h : Located params runs p location) :
    (expand runs)[p]? = some location.run.symbol := by
  obtain ⟨k, back, -, -, -, hdrop⟩ := h.drop_eq
  rw [← List.head?_drop, hdrop, drop_expand_of_lt h.localIdx_lt, List.head?_eq_getElem?,
    getElem?_expand_of_lt (Nat.sub_pos_of_lt h.localIdx_lt)]

/-- With or without an index, a position is found in the run that has it, and the index leads to its
block. -/
theorem Seq.Holds.findRun_spec (h : seq.Holds params runs) {p : ℕ} (hp : p < seq.size) :
    ∃ location, seq.findRun params p = some location ∧ Located params runs p location ∧
      ∀ index, seq.index = some index → ∃ block ≤ (seq.blocks params).length,
        location.dataPos / params.bytesPerBlock = block ∧
          location.blockBase = (before params runs block).length ∧
          Seq.blockStart params index block = place params runs (cut params runs block) := by
  rw [Seq.findRun, if_pos hp]
  cases hindex : seq.index with
  | none =>
      obtain ⟨location, hlocate, hlocated, -⟩ := h.locate 0 hp (Nat.zero_le p)
      exact ⟨location, hlocate, hlocated, nofun⟩
  | some index =>
      obtain ⟨block, hblock, hfind, hle, hlt⟩ := h.sizeIndex_findGt hindex hp
      have hcut : cut params runs block < cut params runs (block + 1) := by
        apply Nat.lt_of_le_of_ne cut_le_succ
        intro hsame
        rw [before, hsame, ← before] at hle
        omega
      obtain ⟨hstart, hdiv⟩ := h.blockStart_eq hindex hblock hcut
      obtain ⟨location, hlocate, hlocated, hbase, k, hk, hkp, hdata⟩ :=
        h.locate (cut params runs block) hp hle
      have hin : location.dataPos / params.bytesPerBlock = block := by
        have hbefore : k < cut params runs (block + 1) := by
          by_contra hnot
          have hmono := @length_expand_take_mono runs _ _ (Nat.le_of_not_lt hnot)
          rw [← before] at hmono
          omega
        have hhigh := @lt_limit_of_codesBefore params runs 0 _ _ hbefore
        rw [Nat.zero_add] at hhigh
        have hlow := @place_mono params runs _ _ hk
        rw [hdata]
        apply Nat.le_antisymm
        · exact Nat.le_of_lt_succ ((Nat.div_lt_iff_lt_mul params.bytes_pos).mpr hhigh)
        · calc block = place params runs (cut params runs block) / params.bytesPerBlock := hdiv.symm
            _ ≤ place params runs k / params.bytesPerBlock := Nat.div_le_div_right hlow
      dsimp only
      rw [hfind, Int.toNat_natCast, hstart]
      refine ⟨location, hlocate, hlocated, ?_⟩
      rintro index' hindex'
      obtain rfl := Option.some.inj hindex'
      exact ⟨block, Nat.le_of_lt hblock, hin, hbase, hstart⟩

section Symbols

variable (h : seq.Holds params runs) (symbol : Fin params.symbols)

include h

theorem Seq.Holds.getSymbol_eq {p : ℕ} (hp : p < seq.size) :
    seq.getSymbol params p = (expand runs)[p]? := by
  obtain ⟨location, hfind, hlocated, -⟩ := h.findRun_spec hp
  rw [Seq.getSymbol, hfind, hlocated.symbol_eq]
  simp only [Option.bind_eq_bind, Option.bind_some, hlocated.inRange, Bool.false_eq_true, if_false]

theorem Seq.Holds.rankTo_eq (p : ℕ) :
    seq.rankTo params p symbol = some (((expand runs).take p).count symbol.val) := by
  rw [Seq.rankTo]
  cases hindex : seq.index with
  | none =>
      have hrank := @blockRank_eq params runs 0 0 symbol p 0
      rw [Nat.zero_add, Nat.zero_add] at hrank
      dsimp only
      rw [h.rest_zero, hrank]
  | some index =>
      dsimp only
      split_ifs with hp
      · obtain ⟨location, hfind, hlocated, hblocks⟩ := h.findRun_spec hp
        obtain ⟨block, hblock, hdata, hbase, hstart⟩ := hblocks index hindex
        have hle : (before params runs block).length ≤ p := by
          have hpos := hlocated.pos_eq
          omega
        have hrank := @blockRank_eq params (runs.drop (cut params runs block))
          (place params runs (cut params runs block)) 0 symbol (p - (before params runs block).length) 0
        rw [Nat.zero_add, Nat.zero_add] at hrank
        have hsplit : (expand runs).take p = before params runs block ++
            (behind params runs block).take (p - (before params runs block).length) := by
          rw [← before_append_behind, List.take_append, List.take_of_length_le hle]
        rw [hfind]
        simp only [Option.bind_eq_bind, Option.bind_some, hdata, h.sumIndex_sumTo hindex symbol hblock,
          hstart, hbase, h.rest_eq, hrank]
        rw [hsplit, List.count_append, Nat.add_comm]
        rfl
      · rw [h.sumIndex_sum hindex symbol, List.take_of_length_le (by rw [← h.size_eq]; omega)]

theorem Seq.Holds.rank_eq : seq.rank params symbol = some ((expand runs).count symbol.val) := by
  rw [Seq.rank]
  cases hindex : seq.index with
  | none =>
      dsimp only
      rw [h.rankTo_eq, h.size_eq, List.take_length]
  | some index => exact h.sumIndex_sum hindex symbol

theorem Seq.Holds.rankFromTo_eq {start stop : ℕ} (hle : start ≤ stop) :
    seq.rankFromTo params start stop symbol =
      some ((((expand runs).drop start).take (stop - start)).count symbol.val) := by
  have hsplit : (expand runs).take stop =
      (expand runs).take start ++ ((expand runs).drop start).take (stop - start) := by
    rw [← List.take_add, Nat.add_sub_cancel' hle]
  rw [Seq.rankFromTo, h.rankTo_eq, h.rankTo_eq, hsplit, List.count_append]
  simp only [Option.bind_eq_bind, Option.bind_some, Nat.add_sub_cancel_left]

theorem Seq.Holds.selectFW_eq {rank : ℕ} (hrank : 0 < rank) :
    seq.selectFW params rank symbol = some (scanSelectFW (expand runs) 0 rank symbol) := by
  obtain ⟨k, rfl⟩ := Nat.exists_eq_add_of_lt hrank
  rw [Seq.selectFW, scanSelectFW, List.drop_zero, Nat.add_sub_cancel]
  cases hindex : seq.index with
  | none =>
      dsimp only
      rw [h.rest_zero, blockSelect_eq]
      cases hselect : select symbol.val (expand runs) k with
      | some i => simp [reportSelect, hselect]
      | none => simp [reportSelect, hselect]
  | some index =>
      obtain ⟨block, hle, hfind, hlow, hhigh⟩ := h.sumIndex_findGe hindex symbol hrank
      dsimp only
      rw [hfind, h.sumIndex_size hindex]
      dsimp only
      split_ifs with hblock
      · have hblock : block < (seq.blocks params).length := Int.ofNat_lt.mp hblock
        have hcount := hhigh hblock
        have hcut : cut params runs block < cut params runs (block + 1) := by
          apply Nat.lt_of_le_of_ne cut_le_succ
          intro hsame
          rw [before, ← hsame, ← before] at hcount
          omega
        obtain ⟨hstart, -⟩ := h.blockStart_eq hindex hblock hcut
        have hlocal : 0 + k + 1 - (before params runs block).count symbol.val =
            0 + (k - (before params runs block).count symbol.val) + 1 := by omega
        have hselect : select symbol.val (expand runs) (0 + k) =
            (select symbol.val (behind params runs block)
              (k - (before params runs block).count symbol.val)).map
                (· + (before params runs block).length) := by
          rw [← @before_append_behind params runs block, select_append, if_neg (by omega), Nat.zero_add]
        have hfound : select symbol.val (behind params runs block)
            (k - (before params runs block).count symbol.val) ≠ none := by
          rw [Ne, select_eq_none_iff]
          have hall : (before params runs (block + 1)).count symbol.val ≤
              (expand runs).count symbol.val := by
            rw [← @before_append_behind params runs (block + 1), List.count_append]
            exact Nat.le_add_right _ _
          rw [← @before_append_behind params runs block, List.count_append] at hall
          omega
        obtain ⟨i, hi⟩ := Option.ne_none_iff_exists'.mp hfound
        rw [Int.toNat_natCast, h.sizeIndex_sumTo hindex hle, hstart, h.rest_eq]
        simp only [Option.bind_eq_bind, Option.bind_some]
        rw [hlocal, blockSelect_eq, reportSelect, ← behind, hselect, hi]
        simp only [Option.map_some, Option.some_inj, BitBuffer.SelectResult.mk.injEq, and_true]
        omega
      · have hend : block = (seq.blocks params).length := by
          have hnot : ¬block < (seq.blocks params).length := fun hlt => hblock (Int.ofNat_lt.mpr hlt)
          omega
        rw [hend, h.before_last] at hlow ⊢
        rw [select_eq_none_iff.mpr (by omega), h.size_eq]

theorem Seq.Holds.selectFWFrom_eq {pos : ℤ} (hpos : -1 ≤ pos) {rank : ℕ} (hrank : 0 < rank) :
    seq.selectFWFrom params pos rank symbol =
      some (scanSelectFW (expand runs) (pos + 1).toNat rank symbol) := by
  rw [Seq.selectFWFrom]
  split_ifs with hlt
  · obtain ⟨q, hq⟩ : ∃ q, q = (pos + 1).toNat := ⟨_, rfl⟩
    rw [← hq, h.rankTo_eq]
    simp only [Option.bind_eq_bind, Option.bind_some]
    rw [h.selectFW_eq symbol (by omega), Option.bind_some, scanSelectFW, List.drop_zero, scanSelectFW]
    have hselect : select symbol.val (expand runs)
        (((expand runs).take q).count symbol.val + rank - 1) =
          (select symbol.val ((expand runs).drop q) (rank - 1)).map (· + q) := by
      have hwidth : ((expand runs).take q).length = q := by
        have hsize := h.size_eq
        rw [List.length_take]
        omega
      conv_lhs => rw [← List.take_append_drop q (expand runs)]
      rw [select_append, List.take_append_drop, if_neg (by omega), hwidth]
      congr 2
      omega
    have hcount : (expand runs).count symbol.val =
        ((expand runs).take q).count symbol.val + ((expand runs).drop q).count symbol.val := by
      rw [← List.count_append, List.take_append_drop]
    rw [hselect, hcount]
    cases select symbol.val ((expand runs).drop q) (rank - 1) with
    | some i =>
        simp only [Option.map_some, Nat.add_sub_cancel_left, Nat.zero_add]
        rw [Nat.add_comm]
    | none => simp only [Option.map_none, Nat.add_sub_cancel_left]
  · have hend : (expand runs).drop (pos + 1).toNat = [] := by
      rw [List.drop_eq_nil_iff, ← h.size_eq]
      omega
    rw [scanSelectFW, hend, List.count_nil, h.size_eq]
    rfl

theorem Seq.Holds.selectBWFrom_eq {pos : ℕ} (hpos : pos ≤ seq.size) {rank : ℕ} (hrank : 0 < rank) :
    seq.selectBWFrom params pos rank symbol = some (scanSelectBW (expand runs) pos rank symbol) := by
  have hwidth : ((expand runs).take pos).length = pos := by
    rw [List.length_take, ← h.size_eq, Nat.min_eq_left hpos]
  rw [Seq.selectBWFrom, h.rankTo_eq, scanSelectBW]
  simp only [Option.bind_eq_bind, Option.bind_some]
  split_ifs with hle
  · have hback := select_reverse (by omega : rank - 1 < ((expand runs).take pos).count symbol.val)
    have hsome : select symbol.val ((expand runs).take pos).reverse (rank - 1) ≠ none := by
      rw [Ne, select_eq_none_iff, List.count_reverse]
      omega
    obtain ⟨i, hi⟩ := Option.ne_none_iff_exists'.mp hsome
    have hselect : select symbol.val (expand runs)
        (((expand runs).take pos).count symbol.val - (rank - 1) - 1) = some (pos - 1 - i) := by
      rw [hi, Option.map_some, hwidth] at hback
      conv_lhs => rw [← List.take_append_drop pos (expand runs)]
      rw [select_append, List.take_append_drop, if_pos (by omega), hback]
      congr 1
      omega
    rw [h.selectFW_eq symbol (by omega), Option.bind_some, scanSelectFW, List.drop_zero, hselect, hi]
    simp only [if_true, Nat.zero_add]
  · rw [select_eq_none_iff.mpr (by rw [List.count_reverse]; omega)]

end Symbols

section Positions

variable (h : seq.Holds params runs)

include h

/-- The search from a run on passes the rest of the run when its symbol is not below. -/
theorem Seq.Holds.selectGEFWFrom_eq (symbol : Fin params.symbols) {p s rank : ℕ}
    (hs : (expand runs)[p]? = some s) (hle : symbol.val ≤ s) (hrank : 0 < rank) :
    ∃ result, seq.selectGEFWFrom params p rank symbol = some result ∧
      result.idx = ((selectGe symbol.val ((expand runs).drop (p + 1)) (rank - 1)).map
        (p + 1 + ·)).getD seq.size ∧
      result.found = (selectGe symbol.val ((expand runs).drop (p + 1)) (rank - 1)).isSome := by
  have hp : p < seq.size := by
    rw [h.size_eq]
    exact (List.getElem?_eq_some_iff.mp hs).1
  obtain ⟨location, hfind, hlocated, -⟩ := h.findRun_spec hp
  obtain ⟨k, back, hruns, hdata, hbase, hdrop⟩ := hlocated.drop_eq
  have hlt := hlocated.localIdx_lt
  have hpos := hlocated.pos_eq
  obtain rfl : s = location.run.symbol := by
    rw [hlocated.symbol_eq] at hs
    exact (Option.some.inj hs).symm
  have hvalid : ∀ run ∈ location.run :: back, 0 < run.length := by
    rw [← hruns]
    exact (h.coded.drop k).pos_lengths
  have hrest : seq.rest params location.dataPos =
      codesOf params location.dataPos (location.run :: back) := by
    rw [hdata, h.rest_eq, hruns]
  have hparts : expand (location.run :: back) =
      List.replicate (location.localIdx + 1) location.run.symbol ++ (expand runs).drop (p + 1) := by
    have hsplit := List.take_append_drop (location.localIdx + 1) (expand (location.run :: back))
    have htake : (expand (location.run :: back)).take (location.localIdx + 1) =
        List.replicate (location.localIdx + 1) location.run.symbol := by
      rw [expand_cons, List.take_append_of_le_length (by rw [List.length_replicate]; omega),
        List.take_replicate, Nat.min_eq_left (by omega)]
    have hnext : (expand (location.run :: back)).drop (location.localIdx + 1) =
        (expand runs).drop (p + 1) := by
      rw [← List.drop_drop, ← hdrop, List.drop_drop]
    rw [← hsplit, htake, hnext]
  have hshift (o : Option ℕ) : ((o.map (· + (location.localIdx + 1))).map
      (0 + (location.blockBase + location.runBase) + ·)).getD seq.size =
        (o.map (p + 1 + ·)).getD seq.size := by
    cases o with
    | none => rfl
    | some i =>
        simp only [Option.map_some, Option.getD_some]
        omega
  rw [Seq.selectGEFWFrom, hfind]
  simp only [Option.bind_eq_bind, Option.bind_some, hrest]
  split_ifs with hsymbol
  · refine ⟨_, rfl, ?_⟩
    have hspec := @blockSelectGe_eq params (location.run :: back) location.dataPos 0 symbol.val hvalid
      seq.size (location.blockBase + location.runBase) (rank + location.localIdx) 0
    have hscan : selectGe symbol.val (expand (location.run :: back)) (rank + location.localIdx) =
        (selectGe symbol.val ((expand runs).drop (p + 1)) (rank - 1)).map
          (· + (location.localIdx + 1)) := by
      rw [hparts, hsymbol, selectGe_replicate_self, if_neg (by omega)]
      congr 2
      omega
    rw [hscan, hshift, Option.isSome_map, Nat.zero_add, Nat.add_assoc rank] at hspec
    exact hspec
  · refine ⟨_, rfl, ?_⟩
    have habove : symbol.val < location.run.symbol := lt_of_le_of_ne hle (Ne.symm hsymbol)
    have hspec := @blockSelectGe_eq params (location.run :: back) location.dataPos 0 symbol.val hvalid
      seq.size (location.blockBase + location.runBase) (rank - 1) 0
    rw [hparts, selectGe_replicate_above habove, hshift, Option.isSome_map, Nat.zero_add,
      Nat.sub_add_cancel hrank] at hspec
    exact hspec

theorem Seq.Holds.countFW_eq {p s : ℕ} (hs : (expand runs)[p]? = some s) :
    seq.countFW params p = some ⟨headCount s ((expand runs).drop p), s⟩ := by
  have hp : p < seq.size := by
    rw [h.size_eq]
    exact (List.getElem?_eq_some_iff.mp hs).1
  obtain ⟨location, hfind, hlocated, -⟩ := h.findRun_spec hp
  obtain ⟨k, back, hruns, hdata, -, hdrop⟩ := hlocated.drop_eq
  obtain rfl : s = location.run.symbol := by
    rw [hlocated.symbol_eq] at hs
    exact (Option.some.inj hs).symm
  have hvalid : ∀ run ∈ location.run :: back, 0 < run.length := by
    rw [← hruns]
    exact (h.coded.drop k).pos_lengths
  rw [Seq.countFW, hfind]
  simp only [Option.bind_eq_bind, Option.bind_some]
  rw [hdata, h.rest_eq, hruns, blockCountFw_eq hvalid hlocated.localIdx_lt, hdrop]

theorem Seq.Holds.countBW_eq {p s : ℕ} (hs : (expand runs)[p]? = some s) :
    seq.countBW params p = some ⟨headCount s ((expand runs).take (p + 1)).reverse, s⟩ := by
  have hcount := @blockCountBw_eq params runs 0 h.coded.pos_lengths [] 0 p (-1)
    (fun s hs => by omega) (fun _ _ => rfl) s hs
  rw [List.length_nil, Nat.zero_add, List.nil_append] at hcount
  rw [Seq.countBW, h.rest_zero, hcount]

end Positions

theorem Seq.Holds.withoutIndex (h : seq.Holds params runs) : seq.withoutIndex.Holds params runs where
  size_eq := h.size_eq
  coded := by
    have hcoded (pos : ℕ) (rs : List (Run ℕ)) (hrs : seq.Coded params pos rs) :
        seq.withoutIndex.Coded params pos rs := by
      induction rs generalizing pos with
      | nil => exact hrs
      | cons run rs ih => exact ⟨hrs.1, hrs.2.1, ih _ hrs.2.2⟩
    exact hcoded 0 runs h.coded
  data_le := h.data_le
  index := nofun

/-- Every query returns what a scan of the symbols returns, with an index and without one. A position
is found in the same run either way. -/
theorem queries_eq_scans (h : seq.Holds params runs) (symbol : Fin params.symbols) :
    (∀ p < seq.size, seq.getSymbol params p = (expand runs)[p]? ∧
      ∃ location plain, seq.findRun params p = some location ∧
        seq.withoutIndex.findRun params p = some plain ∧
        Located params runs p location ∧ location.dataPos = plain.dataPos ∧
        location.dataLength = plain.dataLength ∧ location.localIdx = plain.localIdx ∧
        location.run = plain.run ∧
        location.blockBase + location.runBase = plain.blockBase + plain.runBase) ∧
    ((∀ p, seq.rankTo params p symbol = some (((expand runs).take p).count symbol.val)) ∧
      seq.rank params symbol = some ((expand runs).count symbol.val) ∧
      ∀ start stop, start ≤ stop → seq.rankFromTo params start stop symbol =
        some ((((expand runs).drop start).take (stop - start)).count symbol.val)) ∧
    (∀ rank > 0,
      seq.selectFW params rank symbol = some (scanSelectFW (expand runs) 0 rank symbol) ∧
      (∀ pos ≥ -1, seq.selectFWFrom params pos rank symbol =
        some (scanSelectFW (expand runs) (pos + 1).toNat rank symbol)) ∧
      seq.selectBW params rank symbol = some (scanSelectBW (expand runs) seq.size rank symbol) ∧
      (∀ pos ≤ seq.size, seq.selectBWFrom params pos rank symbol =
        some (scanSelectBW (expand runs) pos rank symbol)) ∧
      ∀ p s, (expand runs)[p]? = some s → symbol.val ≤ s →
        ∃ result, seq.selectGEFWFrom params p rank symbol = some result ∧
          result.idx = ((selectGe symbol.val ((expand runs).drop (p + 1)) (rank - 1)).map
            (p + 1 + ·)).getD seq.size ∧
          result.found = (selectGe symbol.val ((expand runs).drop (p + 1)) (rank - 1)).isSome) ∧
    ∀ p s, (expand runs)[p]? = some s →
      seq.countFW params p = some ⟨headCount s ((expand runs).drop p), s⟩ ∧
      seq.countBW params p = some ⟨headCount s ((expand runs).take (p + 1)).reverse, s⟩ := by
  refine ⟨fun p hp => ⟨h.getSymbol_eq hp, ?_⟩, ⟨h.rankTo_eq symbol, h.rank_eq symbol, fun start stop hle =>
    h.rankFromTo_eq symbol hle⟩, fun rank hrank => ⟨h.selectFW_eq symbol hrank, fun pos hpos =>
    h.selectFWFrom_eq symbol hpos hrank, h.selectBWFrom_eq symbol (Nat.le_refl _) hrank, fun pos hpos =>
    h.selectBWFrom_eq symbol hpos hrank, fun p s hs hle => h.selectGEFWFrom_eq symbol hs hle hrank⟩,
    fun p s hs => ⟨h.countFW_eq hs, h.countBW_eq hs⟩⟩
  obtain ⟨location, hfind, hlocated, -⟩ := h.findRun_spec hp
  obtain ⟨plain, hplain, hlocated', -⟩ := h.withoutIndex.findRun_spec hp
  exact ⟨location, plain, hfind, hplain, hlocated, hlocated.unique hlocated'⟩

def newIndex (params : Params) (runs : List (Run ℕ)) (n : ℕ) : Index params.symbols where
  sizeIndex := FseTree.Tree.rowsTree ((List.range n).map fun b _ => (blockAt params runs b).size)
  sumIndex := FseTree.Tree.rowsTree ((List.range n).map fun b symbol => (blockAt params runs b).sum symbol)
  offsets := (List.range n).map fun b => (blockAt params runs b).offset

theorem newIndex_upToDate (htree : params.tree = FseTree.quickTreeParams)
    (h : seq.Coded params 0 runs) :
    (newIndex params runs (numberOfOffsets params seq.symbolsSize)).UpToDate params seq where
  sizes := by
    rw [h.blocks_eq, List.map_map, htree]
    exact FseTree.Tree.rowsTree_searchable _
  sums := by
    rw [h.blocks_eq, List.map_map, htree]
    exact FseTree.Tree.rowsTree_searchable _
  offsets := by
    rw [h.blocks_eq, List.map_map]
    rfl

def smallParams : Params where
  symbols := 2
  bytesPerBlock := 1
  tree := FseTree.quickTreeParams
  symbols_pos := Nat.two_pos
  symbols_le := by decide
  bytes_pos := Nat.one_pos

def twoRuns : List (Run ℕ) := [⟨0, 2⟩, ⟨1, 1⟩]

def twoBlocks : Seq 2 where
  size := 3
  dataSize := 2
  symbolsSize := 2
  symbols i := if i = 0 then 5 else 4
  index := some (newIndex smallParams twoRuns 2)

theorem twoBlocks_holds : Seq.Holds smallParams twoBlocks twoRuns := by
  have hbits : bitsPerSymbol smallParams = 1 := Nat.size_one
  have hfirst : runValue smallParams ⟨0, 2⟩ = 4 := by rw [runValue, symbolMask, hbits]; rfl
  have hsecond : runValue smallParams ⟨1, 1⟩ = 3 := by rw [runValue, symbolMask, hbits]; rfl
  have hcoded : Seq.Coded smallParams twoBlocks 0 twoRuns := by
    refine ⟨⟨by decide, by decide, by decide⟩, ?_, ⟨by decide, by decide, by decide⟩, ?_, ?_⟩
    · rw [codeLength, hfirst]
      decide
    · rw [codeLength, codeLength, hfirst, hsecond]
      decide
    · rw [codeLength, codeLength, hfirst, hsecond]
      rfl
  refine ⟨rfl, hcoded, Nat.le_refl 2, fun index hindex => ?_⟩
  obtain rfl := Option.some.inj hindex
  exact newIndex_upToDate rfl hcoded

/-- A search through the index. -/
theorem queries_eq_scans_twoBlocks :
    twoBlocks.selectFW smallParams 1 (1 : Fin 2) = some (scanSelectFW [0, 0, 1] 0 1 1) :=
  ((queries_eq_scans twoBlocks_holds (1 : Fin 2)).2.2.1 1 Nat.one_pos).1

end Memoria.RleSeq

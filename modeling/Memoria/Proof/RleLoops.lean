import Memoria.Proof.RleCodes

/-!
# The loops over the codes of a sequence

Each loop goes from run to run and does with a run at once what a scan of the symbols does with
them one by one.
-/

namespace Memoria.RleSeq

open Lib Run

variable {params : Params} {runs : List (Run ℕ)} {pos base symbol : ℕ}

structure Located (params : Params) (runs : List (Run ℕ)) (p : ℕ) (location : Location) : Prop where
  run : ∃ k back, runs.drop k = location.run :: back ∧
    location.dataPos = codeLengths params (runs.take k) ∧
    location.blockBase + location.runBase = (expand (runs.take k)).length
  dataLength_eq : location.dataLength = codeLength params location.run
  localIdx_lt : location.localIdx < location.run.length
  pos_eq : location.blockBase + location.runBase + location.localIdx = p
  inRange : location.outOfRange = false

/-- The loop ends at the run that has the position, by induction on the runs. -/
theorem locateRun_spec (sizeBase : ℕ) {i : ℕ} (hi : i < (expand runs).length) :
    ∃ k run back, runs.drop k = run :: back ∧ (expand (runs.take k)).length ≤ i ∧
      i < (expand (runs.take k)).length + run.length ∧
      locateRun (base + i) sizeBase (codesOf params pos runs) base =
        some ⟨pos + codeLengths params (runs.take k), codeLength params run,
          i - (expand (runs.take k)).length, sizeBase, base + (expand (runs.take k)).length, run,
          false⟩ := by
  induction runs generalizing pos base i with
  | nil => exact absurd hi (Nat.not_lt_zero i)
  | cons run runs ih =>
      rw [codesOf, locateRun]
      dsimp only
      by_cases hrun : i < run.length
      · refine ⟨0, run, runs, rfl, Nat.zero_le i, by rwa [List.take_zero, expand_nil, List.length_nil,
          Nat.zero_add], ?_⟩
        rw [if_neg (by omega), Nat.add_sub_cancel_left]
        rfl
      · rw [length_expand_cons] at hi
        obtain ⟨k, found, back, hruns, hle, hlt, hlocate⟩ :=
          @ih (pos + codeLength params run) (base + run.length) (i - run.length) (by omega)
        rw [Nat.add_assoc, Nat.add_sub_cancel' (Nat.le_of_not_lt hrun)] at hlocate
        refine ⟨k + 1, found, back, hruns, ?_, ?_, ?_⟩
        · rw [List.take_succ_cons, length_expand_cons]
          omega
        · rw [List.take_succ_cons, length_expand_cons]
          omega
        · rw [if_pos (by omega), hlocate, List.take_succ_cons, length_expand_cons, codeLengths_cons,
            Nat.sub_sub, Nat.add_assoc pos, Nat.add_assoc base]

theorem blockRank_eq (i rank : ℕ) :
    blockRank (base + i) symbol (codesOf params pos runs) base rank =
      rank + ((expand runs).take i).count symbol := by
  induction runs generalizing pos base i rank with
  | nil => rw [expand_nil, List.take_nil, List.count_nil]; rfl
  | cons run runs ih =>
      have hnext {rank : ℕ} (hle : run.length ≤ i) :
          blockRank (base + i) symbol (codesOf params (pos + codeLength params run) runs)
            (base + run.length) rank = rank + ((expand runs).take (i - run.length)).count symbol := by
        have hrest := @ih (pos + codeLength params run) (base + run.length) (i - run.length) rank
        rwa [Nat.add_assoc, Nat.add_sub_cancel' hle] at hrest
      rw [codesOf, blockRank]
      dsimp only
      split_ifs with hsymbol hrun hrun
      · rw [hnext (by omega), take_expand_of_le (by omega), List.count_append, hsymbol,
          List.count_replicate_self, Nat.add_assoc]
      · rw [take_expand_of_lt (by omega), hsymbol, List.count_replicate_self]
        omega
      · rw [take_expand_of_lt (by omega), List.count_eq_zero_of_not_mem, Nat.add_zero]
        exact fun hmem => hsymbol (List.eq_of_mem_replicate hmem).symm
      · have hnone : (List.replicate run.length run.symbol).count symbol = 0 :=
          List.count_eq_zero_of_not_mem fun hmem => hsymbol (List.eq_of_mem_replicate hmem).symm
        rw [hnext (by omega), take_expand_of_le (by omega), List.count_append, hnone, Nat.zero_add]

/-- What a search for the occurrence with `k` occurrences before it reports, `rankBase` occurrences and
`start` symbols behind the beginning. -/
def reportSelect (symbols : List ℕ) (symbol k rankBase start : ℕ) : BitBuffer.SelectResult :=
  match select symbol symbols k with
  | some i => ⟨start + i, rankBase + k + 1, true⟩
  | none => ⟨start + symbols.length, rankBase + symbols.count symbol, false⟩

theorem blockSelect_eq (blockSizePrefix k rankBase : ℕ) :
    blockSelect (rankBase + k + 1) blockSizePrefix symbol (codesOf params pos runs) base rankBase =
      reportSelect (expand runs) symbol k rankBase (base + blockSizePrefix) := by
  induction runs generalizing pos base k rankBase with
  | nil => rfl
  | cons run runs ih =>
      rw [codesOf, blockSelect, reportSelect, select_expand_cons]
      dsimp only
      split_ifs with hsymbol hrank hk
      · omega
      · have hrest := @ih (pos + codeLength params run) (base + run.length) (k - run.length)
          (rankBase + run.length)
        have hsum : rankBase + run.length + (k - run.length) = rankBase + k := by omega
        rw [hsum] at hrest
        rw [hrest, reportSelect, hsum]
        cases select symbol (expand runs) (k - run.length) with
        | some i =>
            simp only [Option.map_some, BitBuffer.SelectResult.mk.injEq, and_true]
            omega
        | none =>
            simp only [Option.map_none, length_expand_cons, count_expand_cons, if_pos hsymbol,
              BitBuffer.SelectResult.mk.injEq, and_true]
            omega
      · simp only [BitBuffer.SelectResult.mk.injEq, and_true]
        omega
      · omega
      · rw [ih, reportSelect]
        cases select symbol (expand runs) k with
        | some i =>
            simp only [Option.map_some, BitBuffer.SelectResult.mk.injEq, and_true]
            omega
        | none =>
            simp only [Option.map_none, length_expand_cons, count_expand_cons, if_neg hsymbol,
              BitBuffer.SelectResult.mk.injEq, and_true]
            omega

/-- What is found is the first position with a lower symbol or with the occurrence. -/
theorem blockSelectGe_eq (hvalid : ∀ run ∈ runs, 0 < run.length) (size blockSizePrefix k rankBase : ℕ) :
    (blockSelectGe size (rankBase + k + 1) blockSizePrefix symbol (codesOf params pos runs) base
        rankBase).idx =
      ((selectGe symbol (expand runs) k).map (base + blockSizePrefix + ·)).getD size ∧
    (blockSelectGe size (rankBase + k + 1) blockSizePrefix symbol (codesOf params pos runs) base
        rankBase).found = (selectGe symbol (expand runs) k).isSome := by
  induction runs generalizing pos base k rankBase with
  | nil => exact ⟨rfl, rfl⟩
  | cons run runs ih =>
      have hrest := fun r hr => hvalid r (List.mem_cons_of_mem run hr)
      have hshift (o : Option ℕ) : ((o.map (· + run.length)).map (base + blockSizePrefix + ·)).getD size =
          (o.map (base + run.length + blockSizePrefix + ·)).getD size := by
        cases o with
        | none => rfl
        | some i =>
            simp only [Option.map_some, Option.getD_some]
            omega
      rw [codesOf, blockSelectGe, selectGe_expand_cons (hvalid run List.mem_cons_self)]
      dsimp only
      split_ifs with hsymbol hrank hk hk hbelow
      · omega
      · have hsum : rankBase + run.length + (k - run.length) = rankBase + k := by omega
        have hnext := @ih (pos + codeLength params run) (base + run.length) hrest (k - run.length)
          (rankBase + run.length)
        rw [hsum] at hnext
        rw [hshift, Option.isSome_map]
        exact hnext
      · refine ⟨?_, rfl⟩
        simp only [Option.map_some, Option.getD_some]
        omega
      · omega
      · exact ⟨rfl, rfl⟩
      · rw [hshift, Option.isSome_map]
        exact ih hrest k rankBase

theorem headCount_replicate_self (n : ℕ) (symbols : List ℕ) :
    headCount symbol (List.replicate n symbol ++ symbols) = n + headCount symbol symbols := by
  induction n with
  | zero => rw [List.replicate_zero, List.nil_append, Nat.zero_add]
  | succ n ih =>
      have hhead : decide (symbol = symbol) = true := decide_eq_true rfl
      rw [headCount] at ih ⊢
      rw [List.replicate_succ, List.cons_append, List.takeWhile_cons, if_pos hhead, List.length_cons,
        ih]
      omega

theorem headCount_replicate_ne {other n : ℕ} (h : other ≠ symbol) (hn : 0 < n) (symbols : List ℕ) :
    headCount symbol (List.replicate n other ++ symbols) = 0 := by
  obtain ⟨m, rfl⟩ := Nat.exists_eq_succ_of_ne_zero (Nat.ne_of_gt hn)
  rw [headCount, List.replicate_succ, List.cons_append,
    List.takeWhile_cons_of_neg (by rwa [decide_eq_true_eq]), List.length_nil]

/-- The runs of the same symbol that follow are counted whole. -/
theorem blockCountFw_same (hvalid : ∀ run ∈ runs, 0 < run.length) (count : ℕ) :
    blockCountFw (codesOf params pos runs) 0 count symbol =
      ⟨count + headCount symbol (expand runs), symbol⟩ := by
  induction runs generalizing pos count with
  | nil => rfl
  | cons run runs ih =>
      have hrest := fun r hr => hvalid r (List.mem_cons_of_mem run hr)
      have hnot : ¬(symbol : ℤ) = -1 := by omega
      rw [codesOf, blockCountFw, expand_cons]
      dsimp only
      by_cases hsymbol : run.symbol = symbol
      · rw [if_pos (Or.inl (by rw [hsymbol])), hsymbol, ih hrest, headCount_replicate_self, Nat.sub_zero,
          Nat.add_assoc]
      · rw [if_neg (by omega), headCount_replicate_ne hsymbol (hvalid run List.mem_cons_self),
          Nat.add_zero]

theorem blockCountFw_eq {run : Run ℕ} (hvalid : ∀ r ∈ run :: runs, 0 < r.length) {i : ℕ}
    (hi : i < run.length) :
    blockCountFw (codesOf params pos (run :: runs)) i 0 (-1) =
      ⟨headCount run.symbol ((expand (run :: runs)).drop i), run.symbol⟩ := by
  rw [codesOf, blockCountFw, if_pos (Or.inr rfl),
    blockCountFw_same fun r hr => hvalid r (List.mem_cons_of_mem run hr), drop_expand_of_lt hi,
    expand_cons, headCount_replicate_self, Nat.zero_add]

/-- `front` are the symbols that have been read, and `count` those at its end that are the last
symbol. -/
theorem blockCountBw_eq (hvalid : ∀ run ∈ runs, 0 < run.length) {front : List ℕ} {count i : ℕ}
    {lastSymbol : ℤ} (hcount : ∀ s : ℕ, (s : ℤ) = lastSymbol → count = headCount s front.reverse)
    (hothers : ∀ s : ℕ, (s : ℤ) ≠ lastSymbol → headCount s front.reverse = 0) {s : ℕ}
    (hs : (expand runs)[i]? = some s) :
    blockCountBw (front.length + i) (codesOf params pos runs) count front.length lastSymbol =
      some ⟨headCount s (front ++ (expand runs).take (i + 1)).reverse, s⟩ := by
  induction runs generalizing pos front count i lastSymbol with
  | nil => cases hs
  | cons run runs ih =>
      have hpos := hvalid run List.mem_cons_self
      have hcurrent : (if (run.symbol : ℤ) ≠ lastSymbol then 0 else count) =
          headCount run.symbol front.reverse := by
        split_ifs with hlast
        · exact (hothers run.symbol hlast).symm
        · exact hcount run.symbol (not_not.mp hlast)
      rw [codesOf, blockCountBw]
      dsimp only
      rw [hcurrent]
      split_ifs with hrun
      · have hle : run.length ≤ i := by omega
        rw [getElem?_expand_of_le hle] at hs
        have hrest := @ih (pos + codeLength params run)
          (fun r hr => hvalid r (List.mem_cons_of_mem run hr))
          (front ++ List.replicate run.length run.symbol)
          (headCount run.symbol front.reverse + run.length) (i - run.length) run.symbol
          (by
            intro t ht
            obtain rfl := Int.ofNat.inj ht
            rw [List.reverse_append, List.reverse_replicate, headCount_replicate_self, Nat.add_comm])
          (by
            intro t ht
            rw [List.reverse_append, List.reverse_replicate,
              headCount_replicate_ne (fun h => ht (by rw [h])) hpos])
          hs
        have hnext : i + 1 - run.length = i - run.length + 1 := by omega
        rw [List.length_append, List.length_replicate, Nat.add_assoc, Nat.add_sub_cancel' hle,
          List.append_assoc, ← hnext, ← take_expand_of_le (by omega)] at hrest
        exact hrest
      · rw [getElem?_expand_of_lt (by omega), Option.some_inj] at hs
        obtain rfl := hs
        have htake : (expand (run :: runs)).take (i + 1) = List.replicate (i + 1) run.symbol := by
          rw [expand_cons, List.take_append_of_le_length (by rw [List.length_replicate]; omega),
            List.take_replicate, Nat.min_eq_left (by omega)]
        rw [htake, List.reverse_append, List.reverse_replicate, headCount_replicate_self]
        congr 2
        omega

end Memoria.RleSeq

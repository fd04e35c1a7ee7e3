import Memoria.Proof.RleQueries
import Memoria.RleIterator

/-!
# Iteration over sequences of runs

An iterator stands at a position as long as it has data. Every step moves it over the symbols that
it has passed, and a loop that reads runs until there are no more reads all the symbols from there.
-/

namespace Memoria.RleSeq

open Lib Run

namespace SymbolsBuffer

variable (buffer : SymbolsBuffer) (lastSymbol symbol length : ℕ)

/-- A buffer by its head. -/
theorem eq_nil_or_concat : buffer = [] ∨ ∃ (rest : SymbolsBuffer) (head : Run ℕ), buffer = rest ++ [head] := by
  rcases List.eq_nil_or_concat buffer with h | ⟨rest, head, h⟩
  · exact Or.inl h
  · exact Or.inr ⟨rest, head, by rw [h, List.concat_eq_append]⟩

theorem expand_splitHead : expand buffer.splitHead = expand buffer := by
  rcases eq_nil_or_concat buffer with rfl | ⟨rest, head, rfl⟩
  · rfl
  · rw [splitHead, List.getLast?_concat]
    dsimp only
    split_ifs with hlong
    · rw [List.dropLast_concat, expand_append, expand_append, expand_cons, expand_cons, expand_cons,
        expand_nil, List.append_nil, List.append_nil, ← List.replicate_add]
      congr 2
      exact Nat.sub_add_cancel (Nat.le_of_lt hlong)
    · rfl

theorem expand_appendRun : expand (appendRun lastSymbol symbol length buffer) =
    expand buffer ++ List.replicate length symbol := by
  have hrun : expand [(⟨symbol, length⟩ : Run ℕ)] = List.replicate length symbol := by
    rw [expand_cons, expand_nil, List.append_nil]
  rcases eq_nil_or_concat buffer with rfl | ⟨rest, head, rfl⟩
  · exact hrun
  · rw [appendRun, List.getLast?_concat]
    dsimp only
    split_ifs with hsymbol hlow
    · rw [expand_append, expand_splitHead, hrun]
    · rw [expand_append, hrun]
    · rw [not_not] at hsymbol
      rw [List.dropLast_concat, expand_append, expand_append, expand_cons, expand_cons, expand_nil,
        List.append_nil, List.append_nil, hsymbol, List.replicate_add, List.append_assoc]

theorem expand_finish : expand (finish lastSymbol buffer) = expand buffer := by
  rcases eq_nil_or_concat buffer with rfl | ⟨rest, head, rfl⟩
  · rfl
  · rw [finish, List.getLast?_concat]
    dsimp only
    split_ifs with hlow
    · exact expand_splitHead _
    · rfl

end SymbolsBuffer

section Positions

variable {params : Params} {runs : List (Run ℕ)} {seq : Seq params.symbols}

structure Iterator.At (params : Params) (seq : Seq params.symbols) (runs : List (Run ℕ)) (base p : ℕ)
    (it : Iterator) : Prop where
  pos_eq : base + it.localPos = p
  stands : (p < seq.size ∧ ∃ k back, runs.drop k = it.run :: back ∧
      it.dataPos = place params runs (k + 1) ∧
      base + it.runPrefix = (expand (runs.take k)).length ∧ it.localIdx < it.run.length) ∨
    (p = seq.size ∧ it.run.length ≤ it.localIdx ∧ it.dataPos = seq.dataSize)

variable {it : Iterator} {base p : ℕ}

theorem Iterator.At.hasData_iff (hat : it.At params seq runs base p) :
    it.hasData params seq = true ↔ p < seq.size := by
  rw [Iterator.hasData, Bool.or_eq_true, decide_eq_true_eq, decide_eq_true_eq]
  rcases hat.stands with ⟨hp, k, back, -, -, -, hlt⟩ | ⟨hp, hle, hdata⟩
  · exact ⟨fun _ => hp, fun _ => Or.inl hlt⟩
  · omega

theorem Iterator.At.remaining_pos (hat : it.At params seq runs base p) (hp : p < seq.size) :
    0 < it.remainingRunLength := by
  rcases hat.stands with ⟨-, k, back, -, -, -, hlt⟩ | ⟨hend, -, -⟩
  · exact Nat.sub_pos_of_lt hlt
  · omega

/-- The rest of the run, and the symbols behind it. -/
theorem Iterator.At.drop_eq (hat : it.At params seq runs base p) (hp : p < seq.size) :
    (expand runs).drop p = List.replicate it.remainingRunLength it.run.symbol ++
      (expand runs).drop (p + it.remainingRunLength) := by
  rcases hat.stands with ⟨-, k, back, hruns, -, hbase, hlt⟩ | ⟨hend, -, -⟩
  · have hpos := hat.pos_eq
    rw [Iterator.localPos] at hpos
    have hsplit : expand runs = expand (runs.take k) ++ expand (it.run :: back) := by
      rw [← hruns, ← expand_append, List.take_append_drop]
    have hwhole : (expand runs).drop p = (expand (it.run :: back)).drop it.localIdx := by
      rw [hsplit, List.drop_append, ← hbase, List.drop_of_length_le (by omega), List.nil_append]
      congr 1
      omega
    rw [← List.drop_drop, hwhole, drop_expand_of_lt hlt, expand_cons, Iterator.remainingRunLength,
      List.drop_left' (List.length_replicate)]
  · omega

variable (h : seq.Holds params runs)

include h

theorem Iterator.At.nextRun (hat : it.At params seq runs base p) (hp : p < seq.size) :
    (it.nextRun params seq).At params seq runs base (p + it.remainingRunLength) := by
  rcases hat.stands with ⟨-, k, back, hruns, hdata, hbase, hlt⟩ | ⟨hend, -, -⟩
  · have hpos := hat.pos_eq
    have hnext : runs.drop (k + 1) = back := by
      rw [← List.drop_drop, hruns, List.drop_succ_cons, List.drop_zero]
    have hcoded := h.coded.drop (k + 1)
    have htotal := length_expand_take_succ hruns
    rw [Iterator.localPos] at hpos
    rw [hnext] at hcoded
    rw [Iterator.nextRun, Iterator.remainingRunLength]
    cases back with
    | nil =>
        have hlast : place params runs (k + 1) = seq.dataSize := hcoded
        have hall : runs.take (k + 1) = runs := by
          rw [List.take_eq_self_iff, ← List.drop_eq_nil_iff, hnext]
        rw [hall, ← h.size_eq] at htotal
        rw [if_neg (by omega)]
        refine ⟨?_, Or.inr ⟨?_, Nat.le_refl _, ?_⟩⟩
        · rw [Iterator.localPos]
          dsimp only
          omega
        · omega
        · exact hdata.trans hlast
    | cons run rest =>
        have hbelow := hcoded.lt_dataSize
        rw [if_pos (by omega), hdata, hcoded.decode_eq]
        have hmono := @length_expand_take_mono runs (k + 1 + 1) runs.length
        have hsucc := length_expand_take_succ hnext
        have hsize := h.size_eq
        have hrun := hcoded.pos_lengths run List.mem_cons_self
        have hplace := @place_drop_succ params _ _ _ _ hnext
        have hk := lt_length_of_drop hnext
        rw [List.take_length] at hmono
        have hle := hmono hk
        refine ⟨?_, Or.inl ⟨?_, k + 1, rest, hnext, hplace.symm, ?_, hrun⟩⟩
        · rw [Iterator.localPos]
          dsimp only
          omega
        · omega
        · dsimp only
          omega
  · omega

theorem Iterator.At.next (hat : it.At params seq runs base p) (hp : p < seq.size) :
    (it.next params seq).At params seq runs base (p + 1) := by
  rw [Iterator.next]
  split_ifs with hmore
  · rcases hat.stands with ⟨-, k, back, hruns, hdata, hbase, hlt⟩ | ⟨hend, -, -⟩
    · have hpos := hat.pos_eq
      have hmono := @length_expand_take_mono runs (k + 1) runs.length
      have hsucc := length_expand_take_succ hruns
      have hk := lt_length_of_drop hruns
      have hle := hmono hk
      rw [List.take_length, ← h.size_eq] at hle
      rw [Iterator.localPos] at hpos
      refine ⟨?_, Or.inl ⟨?_, k, back, hruns, hdata, hbase, hmore⟩⟩
      · rw [Iterator.localPos]
        dsimp only
        omega
      · omega
    · omega
  · have hone : it.remainingRunLength = 1 := by
      have hpos := hat.remaining_pos hp
      rw [Iterator.remainingRunLength] at hpos ⊢
      omega
    have hsame : ({ it with localIdx := it.localIdx + 1 } : Iterator).nextRun params seq =
        it.nextRun params seq := by
      rw [Iterator.nextRun, Iterator.nextRun]
    have hnext := hat.nextRun h hp
    rw [hone] at hnext
    rw [hsame]
    exact hnext

/-- The iterator of a position, which reports positions behind the block base of its run. -/
theorem Seq.Holds.iterator_spec (hp : p ≤ seq.size) :
    ∃ it base, seq.iterator params p = some it ∧ it.At params seq runs base p ∧
      (p < seq.size → ∃ location, seq.findRun params p = some location ∧
        base = location.blockBase) ∧ (p = seq.size → base = 0) := by
  rw [Seq.iterator]
  split_ifs with hlt
  · obtain ⟨location, hfind, hlocated, -⟩ := h.findRun_spec hlt
    obtain ⟨k, back, hruns, hdata, hbase⟩ := hlocated.run
    have hcoded := h.coded.drop k
    rw [hruns] at hcoded
    have hbelow := hcoded.lt_dataSize
    have hplace := @place_drop_succ params _ _ _ _ hruns
    change location.dataPos = place params runs k at hdata
    refine ⟨⟨place params runs (k + 1), location.runBase, location.localIdx, location.run⟩,
      location.blockBase, ?_, ⟨?_, Or.inl ⟨hlt, k, back, hruns, rfl, hbase, hlocated.localIdx_lt⟩⟩,
      fun _ => ⟨location, hfind, rfl⟩, fun hend => absurd hlt (by omega)⟩
    · rw [hfind]
      simp only [Option.bind_eq_bind, Option.bind_some, Iterator.make]
      rw [if_pos (by omega), hcoded.1.encodeRun_eq, Option.bind_some, hplace, hdata]
      rfl
    · rw [Iterator.localPos, ← Nat.add_assoc]
      exact hlocated.pos_eq
  · obtain rfl : p = seq.size := by omega
    refine ⟨⟨seq.dataSize, 0, seq.size, ⟨0, 0⟩⟩, 0, ?_, ⟨?_, Or.inr ⟨rfl, Nat.zero_le _, rfl⟩⟩,
      fun hlt' => absurd hlt' (by omega), fun _ => rfl⟩
    · rw [Iterator.make, if_neg (Nat.lt_irrefl _)]
    · rw [Iterator.localPos]
      dsimp only
      omega

end Positions

section Steps

variable {params : Params} {runs : List (Run ℕ)} {seq : Seq params.symbols}

def Iterator.CameFrom (params : Params) (seq : Seq params.symbols) (runs : List (Run ℕ)) (base p : ℕ)
    (state : Iterator × List ℕ) : Prop :=
  state.1.At params seq runs base (p + state.2.length) ∧
    state.2 = ((expand runs).drop p).take state.2.length

theorem Iterator.CameFrom.step (h : seq.Holds params runs) {base p : ℕ}
    {state state' : Iterator × List ℕ} {step : Step}
    (hfrom : Iterator.CameFrom params seq runs base p state)
    (hstep : Iterator.step params seq state step = some state') :
    Iterator.CameFrom params seq runs base p state' := by
  obtain ⟨it, out⟩ := state
  obtain ⟨hat, hout⟩ := hfrom
  unfold Iterator.step at hstep
  rw [Option.ite_none_right_eq_some] at hstep
  obtain ⟨hdata, hstate⟩ := hstep
  obtain rfl := Option.some.inj hstate
  have hp := hat.hasData_iff.mp hdata
  have hdrop := hat.drop_eq hp
  rw [← List.drop_drop] at hdrop
  -- what is passed stands behind what has been passed
  have hpassed (passed : List ℕ) (hfront : ∃ rest, ((expand runs).drop p).drop out.length =
      passed ++ rest) : out ++ passed = ((expand runs).drop p).take (out ++ passed).length := by
    obtain ⟨rest, hrest⟩ := hfront
    rw [List.length_append, List.take_add, ← hout, hrest, List.take_left]
  cases step with
  | symbol =>
      refine ⟨?_, hpassed _ ?_⟩
      · rw [List.length_append, ← Nat.add_assoc]
        exact hat.next h hp
      · obtain ⟨n, hn⟩ := Nat.exists_eq_succ_of_ne_zero (Nat.ne_of_gt (hat.remaining_pos hp))
        rw [hn, List.replicate_succ, List.cons_append] at hdrop
        exact ⟨_, hdrop⟩
  | run =>
      refine ⟨?_, hpassed _ ⟨_, hdrop⟩⟩
      rw [Iterator.passed, List.length_append, List.length_replicate, ← Nat.add_assoc]
      exact hat.nextRun h hp

end Steps

section Reading

variable {params : Params} {runs : List (Run ℕ)} {seq : Seq params.symbols} (h : seq.Holds params runs)
variable {it : Iterator} {base p : ℕ}

include h

/-- The loop reads the symbols down to the first one that is lower. -/
theorem Iterator.At.populateWhileLoop (hat : it.At params seq runs base p) (hp : p ≤ seq.size)
    (symbol : ℕ) {fuel : ℕ} (hfuel : seq.size - p < fuel) (buffer : SymbolsBuffer) :
    ∃ out, seq.populateWhileLoop params symbol fuel it buffer = some out ∧
      expand out.1 = expand buffer ++ ((expand runs).drop p).takeWhile (symbol ≤ ·) ∧
      (base = 0 → out.2 = p + (((expand runs).drop p).takeWhile (symbol ≤ ·)).length) := by
  induction fuel generalizing it p buffer with
  | zero => exact absurd hfuel (Nat.not_lt_zero _)
  | succ fuel ih =>
      rw [Seq.populateWhileLoop]
      split_ifs with hdata hsymbol
      · have hlt := hat.hasData_iff.mp hdata
        have hpos := hat.remaining_pos hlt
        have hnext := hat.nextRun h hlt
        have hdrop := hat.drop_eq hlt
        have hle : p + it.remainingRunLength ≤ seq.size := by
          have hlength := congrArg List.length hdrop
          rw [List.length_append, List.length_replicate, List.length_drop, List.length_drop,
            ← h.size_eq] at hlength
          omega
        obtain ⟨out, hloop, hexpand, hend⟩ := ih hnext hle (by omega)
          (buffer.appendRun (params.symbols - 1) it.run.symbol it.remainingRunLength)
        have htake : ((expand runs).drop p).takeWhile (symbol ≤ ·) =
            List.replicate it.remainingRunLength it.run.symbol ++
              ((expand runs).drop (p + it.remainingRunLength)).takeWhile (symbol ≤ ·) := by
          rw [hdrop, List.takeWhile_append_of_pos]
          intro s hs
          rw [List.eq_of_mem_replicate hs]
          exact decide_eq_true hsymbol
        refine ⟨out, hloop, ?_, fun hbase => ?_⟩
        · rw [hexpand, SymbolsBuffer.expand_appendRun, htake, List.append_assoc]
        · rw [hend hbase, htake, List.length_append, List.length_replicate, Nat.add_assoc]
      · have hlt := hat.hasData_iff.mp hdata
        have hdrop := hat.drop_eq hlt
        obtain ⟨n, hn⟩ := Nat.exists_eq_succ_of_ne_zero (Nat.ne_of_gt (hat.remaining_pos hlt))
        have hstop : ((expand runs).drop p).takeWhile (symbol ≤ ·) = [] := by
          rw [hdrop, hn, List.replicate_succ, List.cons_append,
            List.takeWhile_cons_of_neg (by rwa [decide_eq_true_eq])]
        refine ⟨_, rfl, ?_, fun hbase => ?_⟩
        · rw [SymbolsBuffer.expand_finish, hstop, List.append_nil]
        · have hpos := hat.pos_eq
          rw [hstop, List.length_nil, ← hpos, hbase, Nat.zero_add, Nat.add_zero]
      · have hend : p = seq.size := by
          have hnot := hat.hasData_iff.not.mp hdata
          omega
        have hnil : (expand runs).drop p = [] := by
          rw [List.drop_eq_nil_iff, hend, h.size_eq]
        refine ⟨_, rfl, ?_, fun _ => ?_⟩
        · rw [SymbolsBuffer.expand_finish, hnil, List.takeWhile_nil, List.append_nil]
        · rw [hnil, List.takeWhile_nil, List.length_nil, Nat.add_zero, hend]

/-- A loop that may read all there is reads it, and ends. -/
theorem Iterator.At.populateLoop (hat : it.At params seq runs base p) (hp : p ≤ seq.size)
    {size total : ℕ} (hall : total + (seq.size - p) ≤ size) {fuel : ℕ} (hfuel : seq.size - p < fuel)
    (buffer : SymbolsBuffer) :
    ∃ out, seq.populateLoop params size fuel it total buffer = some out ∧
      expand out.1 = expand buffer ++ (expand runs).drop p ∧ out.2 = total + (seq.size - p) := by
  induction fuel generalizing it p total buffer with
  | zero => exact absurd hfuel (Nat.not_lt_zero _)
  | succ fuel ih =>
      rw [Seq.populateLoop]
      split_ifs with hdata
      · have hlt := hat.hasData_iff.mp hdata
        have hpos := hat.remaining_pos hlt
        have hdrop := hat.drop_eq hlt
        have hle : p + it.remainingRunLength ≤ seq.size := by
          have hlength := congrArg List.length hdrop
          rw [List.length_append, List.length_replicate, List.length_drop, List.length_drop,
            ← h.size_eq] at hlength
          omega
        dsimp only
        rw [if_pos (by omega)]
        obtain ⟨out, hloop, hexpand, hend⟩ := @ih _ _ (hat.nextRun h hlt) hle
          (total + it.remainingRunLength) (by omega) (by omega)
          (buffer.appendRun (params.symbols - 1) it.run.symbol it.remainingRunLength)
        refine ⟨out, hloop, ?_, by omega⟩
        rw [hexpand, SymbolsBuffer.expand_appendRun, hdrop, List.append_assoc]
      · have hend : p = seq.size := by
          have hnot := hat.hasData_iff.not.mp hdata
          omega
        refine ⟨_, rfl, ?_, by dsimp only; omega⟩
        rw [SymbolsBuffer.expand_finish, List.drop_of_length_le (by rw [← h.size_eq]; omega),
          List.append_nil]

/-- A loop that must leave something does not end: what is left keeps it going. -/
theorem Iterator.At.populateLoop_eq_none (hat : it.At params seq runs base p) {size total : ℕ}
    (htotal : total ≤ size) (hmore : size < total + (seq.size - p)) (fuel : ℕ)
    (buffer : SymbolsBuffer) : seq.populateLoop params size fuel it total buffer = none := by
  induction fuel generalizing it p total buffer with
  | zero => rfl
  | succ fuel ih =>
      rw [Seq.populateLoop]
      split_ifs with hdata
      · have hlt := hat.hasData_iff.mp hdata
        dsimp only
        split_ifs with hfits
        · exact ih (hat.nextRun h hlt) (by omega) (by omega) _
        · exact ih hat (by omega) (by omega) _
      · have hnot := hat.hasData_iff.not.mp hdata
        omega

end Reading

section Results

variable {params : Params} {runs : List (Run ℕ)} {seq : Seq params.symbols}

theorem populateWhile_eq {p : ℕ} {it : Iterator} (hit : seq.iterator params p = some it) (fuel : ℕ)
    (buffer : SymbolsBuffer) (symbol : ℕ) : seq.populateWhile params fuel buffer p symbol =
      seq.populateWhileLoop params symbol fuel it buffer := by
  rw [Seq.populateWhile, hit]
  rfl

theorem populate_eq {idx : ℕ} {it : Iterator} (hit : seq.iterator params idx = some it) (fuel : ℕ)
    (buffer : SymbolsBuffer) (size : ℕ) : seq.populate params fuel buffer idx size =
      (seq.populateLoop params size fuel it 0 buffer).map fun out => (out.1, idx + out.2) := by
  rw [Seq.populate, hit]
  cases hloop : seq.populateLoop params size fuel it 0 buffer with
  | none => simp only [Option.bind_eq_bind, Option.bind_some, hloop, Option.bind_none, Option.map_none]
  | some out => simp only [Option.bind_eq_bind, Option.bind_some, hloop, Option.map_some]

/-- An iterator of a position passes the symbols from there on, whatever its steps are, and ends behind
the last one. Where the run of the position has nothing in front of its block, the iterator reports
its position all the way, and `populate_while` the position of the first symbol that is lower. -/
theorem iteration_exact (h : seq.Holds params runs) {p : ℕ} (hp : p ≤ seq.size) :
    ∃ it, seq.iterator params p = some it ∧
      (∀ steps, EveryState (Iterator.step params seq)
        (fun state => state.2 = ((expand runs).drop p).take state.2.length ∧
          (state.1.hasData params seq = true ↔ p + state.2.length < seq.size))
        (it, []) steps) ∧
      (∀ symbol, ∀ fuel > seq.size - p, ∀ buffer, ∃ out,
        seq.populateWhile params fuel buffer p symbol = some out ∧
        expand out.1 = expand buffer ++ ((expand runs).drop p).takeWhile (symbol ≤ ·)) ∧
      ((∀ location, p < seq.size → seq.findRun params p = some location → location.blockBase = 0) →
        (∀ steps, EveryState (Iterator.step params seq)
          (fun state => state.1.localPos = p + state.2.length) (it, []) steps) ∧
        ∀ symbol, ∀ fuel > seq.size - p, ∀ buffer, ∃ out,
          seq.populateWhile params fuel buffer p symbol = some out ∧
          out.2 = p + (((expand runs).drop p).takeWhile (symbol ≤ ·)).length) := by
  obtain ⟨it, base, hit, hat, hbase, hbaseEnd⟩ := h.iterator_spec hp
  have hfrom : Iterator.CameFrom params seq runs base p (it, []) := ⟨hat, rfl⟩
  have hrun {Q : Iterator × List ℕ → Prop}
      (hkeep : ∀ state, Iterator.CameFrom params seq runs base p state → Q state) (steps : List Step) :
      EveryState (Iterator.step params seq) Q (it, []) steps :=
    EveryState.of_invariant (P := fun _ _ => True) (fun _ _ _ hs _ hstep => hs.step h hstep) hkeep hfrom
      (EveryStep.trivial_of (fun _ _ => trivial) _ _)
  have hloop (symbol fuel : ℕ) (hfuel : fuel > seq.size - p) (buffer : SymbolsBuffer) :
      ∃ out, seq.populateWhile params fuel buffer p symbol = some out ∧
        expand out.1 = expand buffer ++ ((expand runs).drop p).takeWhile (symbol ≤ ·) ∧
        (base = 0 → out.2 = p + (((expand runs).drop p).takeWhile (symbol ≤ ·)).length) := by
    obtain ⟨out, hout, hspec⟩ := hat.populateWhileLoop h hp symbol hfuel buffer
    exact ⟨out, (populateWhile_eq hit fuel buffer symbol).trans hout, hspec⟩
  refine ⟨it, hit, hrun fun state hs => ⟨hs.2, hs.1.hasData_iff⟩, fun symbol fuel hfuel buffer => ?_,
    fun hfront => ?_⟩
  · obtain ⟨out, hout, hexpand, -⟩ := hloop symbol fuel hfuel buffer
    exact ⟨out, hout, hexpand⟩
  · have hzero : base = 0 := by
      rcases Nat.lt_or_eq_of_le hp with hlt | hend
      · obtain ⟨location, hfind, rfl⟩ := hbase hlt
        exact hfront location hlt hfind
      · exact hbaseEnd hend
    refine ⟨hrun fun state hs => ?_, fun symbol fuel hfuel buffer => ?_⟩
    · rw [← hs.1.pos_eq, hzero, Nat.zero_add]
    · obtain ⟨out, hout, -, hend⟩ := hloop symbol fuel hfuel buffer
      exact ⟨out, hout, hend hzero⟩

/-- From the second of 0, 0, 1 on. -/
theorem iteration_exact_twoBlocks : ∃ it, twoBlocks.iterator smallParams 1 = some it ∧
    (∀ steps, EveryState (Iterator.step smallParams twoBlocks)
      (fun state => state.2 = [0, 1].take state.2.length ∧
        (state.1.hasData smallParams twoBlocks = true ↔ 1 + state.2.length < 3)) (it, []) steps) ∧
    (∀ steps, EveryState (Iterator.step smallParams twoBlocks)
      (fun state => state.1.localPos = 1 + state.2.length) (it, []) steps) ∧
    ∃ out, twoBlocks.populateWhile smallParams 3 [] 1 0 = some out ∧ expand out.1 = [0, 1] ∧
      out.2 = 3 := by
  obtain ⟨it, hit, hsteps, hpopulate, hfront⟩ :=
    iteration_exact twoBlocks_holds (by decide : 1 ≤ twoBlocks.size)
  have hbase : (twoBlocks.findRun smallParams 1).map (·.blockBase) = some 0 := by decide +kernel
  obtain ⟨hpos, hend⟩ := hfront fun location _ hfind => by
    rw [hfind] at hbase
    exact Option.some.inj hbase
  refine ⟨it, hit, hsteps, hpos, ?_⟩
  obtain ⟨out, hout, hexpand⟩ := hpopulate 0 3 (by decide) []
  obtain ⟨out', hout', hpos'⟩ := hend 0 3 (by decide) []
  cases hout.symm.trans hout'
  exact ⟨out, hout, hexpand, hpos'⟩

/-- `populate_while` passes symbols that are higher: from 0, 0, 1 it reads all three for the symbol
0. -/
theorem populateWhile_passes_higher :
    ¬∃ out, twoBlocks.populateWhile smallParams 4 [] 0 0 = some out ∧
      out.2 = ((expand twoRuns).takeWhile (· = 0)).length := by
  rintro ⟨out, hpopulate, hfirst⟩
  obtain ⟨it, base, hit, hat, -, -⟩ := twoBlocks_holds.iterator_spec (Nat.zero_le _)
  obtain ⟨out', hloop, -, hend⟩ := hat.populateWhileLoop twoBlocks_holds (Nat.zero_le _) 0
    (by decide : twoBlocks.size - 0 < 4) []
  obtain rfl := Option.some.inj (hpopulate.symm.trans ((populateWhile_eq hit 4 [] 0).trans hloop))
  have hzero : base = 0 := by
    have hpos := hat.pos_eq
    omega
  rw [hend hzero] at hfirst
  exact absurd hfirst (by decide)

/-- A range is read exactly, and at all, if and only if it ends where the sequence ends. -/
theorem populate_exact_iff (h : seq.Holds params runs) {idx size : ℕ} (hle : idx + size ≤ seq.size)
    (buffer : SymbolsBuffer) :
    (∃ fuel out, seq.populate params fuel buffer idx size = some out ∧
      expand out.1 = expand buffer ++ ((expand runs).drop idx).take size ∧ out.2 = idx + size) ↔
    idx + size = seq.size := by
  obtain ⟨it, base, hit, hat, -, -⟩ := h.iterator_spec (Nat.le_of_add_right_le hle)
  constructor
  · rintro ⟨fuel, out, hpopulate, -, -⟩
    by_contra hne
    rw [populate_eq hit, hat.populateLoop_eq_none h (Nat.zero_le _) (by omega)] at hpopulate
    cases hpopulate
  · intro hend
    obtain ⟨out, hloop, hexpand, htotal⟩ := hat.populateLoop h (by omega) (by omega : 0 + _ ≤ size)
      (Nat.lt_succ_self _) buffer
    refine ⟨(seq.size - idx).succ, (out.1, idx + out.2), ?_, ?_, ?_⟩
    · rw [populate_eq hit, hloop, Option.map_some]
    · rw [hexpand, List.take_of_length_le]
      rw [List.length_drop, ← h.size_eq]
      omega
    · dsimp only
      omega

/-- A range that ends with the sequence. -/
theorem populate_exact_iff_twoBlocks :
    ∃ fuel out, twoBlocks.populate smallParams fuel [] 1 2 = some out ∧
      expand out.1 = expand [] ++ ((expand twoRuns).drop 1).take 2 ∧ out.2 = 1 + 2 :=
  (populate_exact_iff twoBlocks_holds (by decide : 1 + 2 ≤ twoBlocks.size) []).mpr rfl

/-- The first symbol of three cannot be read alone. -/
theorem populate_hangs :
    ¬∃ fuel out, twoBlocks.populate smallParams fuel [] 0 1 = some out ∧
      expand out.1 = ((expand twoRuns).drop 0).take 1 := by
  rintro ⟨fuel, out, hpopulate, -⟩
  obtain ⟨it, base, hit, hat, -, -⟩ := twoBlocks_holds.iterator_spec (Nat.zero_le _)
  have hnone := hat.populateLoop_eq_none twoBlocks_holds (Nat.zero_le 1) (by decide) fuel []
  rw [populate_eq hit fuel [] 1, hnone] at hpopulate
  cases hpopulate

end Results

end Memoria.RleSeq

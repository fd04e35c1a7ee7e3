import Memoria.Proof.ByteCodecs
import Memoria.RleSeq

/-!
# The codes of a sequence of runs

The data of a sequence are the codes of its runs, one behind the other. A loop over the codes reads
the runs back, from the place of any of the codes on.
-/

namespace Memoria.RleSeq

open Lib

section Runs

variable (params : Params)

def ValidRun (run : Run ℕ) : Prop :=
  run.symbol < params.symbols ∧ 0 < run.length ∧ run.length ≤ maxRLERunLength

def runValue (run : Run ℕ) : BitVec 64 :=
  BitVec.ofNat 64 (run.symbol &&& symbolMask params ||| run.length <<< bitsPerSymbol params)

def codeLength (run : Run ℕ) : ℕ := UInt64Codec.length (runValue params run)

variable {params} {run : Run ℕ}

theorem bitsPerSymbol_le : bitsPerSymbol params ≤ 8 := by
  have hle := params.symbols_le
  rw [bitsPerSymbol, Nat.size_le]
  omega

theorem ValidRun.symbol_lt (h : ValidRun params run) : run.symbol < 2 ^ bitsPerSymbol params := by
  have hlast := Nat.lt_size_self (params.symbols - 1)
  have hsymbol := h.1
  rw [bitsPerSymbol]
  omega

theorem symbolMask_eq : symbolMask params = 2 ^ bitsPerSymbol params - 1 := by
  rw [symbolMask, Nat.one_shiftLeft]

theorem ValidRun.toNat_runValue (h : ValidRun params run) :
    (runValue params run).toNat = run.length * 2 ^ bitsPerSymbol params + run.symbol ∧
      (runValue params run).toNat < 2 ^ 56 := by
  have hsymbol := h.symbol_lt
  have hlength := h.2.2
  have hpow : 2 ^ bitsPerSymbol params ≤ 2 ^ 8 := Nat.pow_le_pow_right Nat.two_pos bitsPerSymbol_le
  have hnumber : run.symbol &&& symbolMask params ||| run.length <<< bitsPerSymbol params =
      run.length * 2 ^ bitsPerSymbol params + run.symbol := by
    rw [symbolMask_eq, Nat.and_two_pow_sub_one_eq_mod, Nat.mod_eq_of_lt hsymbol, Nat.or_comm,
      ← Nat.shiftLeft_add_eq_or_of_lt hsymbol, Nat.shiftLeft_eq]
  have hbound : run.length * 2 ^ bitsPerSymbol params + run.symbol < 2 ^ 56 := by
    calc run.length * 2 ^ bitsPerSymbol params + run.symbol
        < run.length * 2 ^ bitsPerSymbol params + 2 ^ bitsPerSymbol params :=
          Nat.add_lt_add_left hsymbol _
      _ = (run.length + 1) * 2 ^ bitsPerSymbol params := by rw [Nat.add_one_mul]
      _ ≤ (maxRLERunLength + 1) * 2 ^ 8 := Nat.mul_le_mul (Nat.succ_le_succ hlength) hpow
      _ ≤ 2 ^ 56 := by decide
  rw [runValue, hnumber, BitVec.toNat_ofNat, Nat.mod_eq_of_lt (by omega)]
  exact ⟨rfl, hbound⟩

theorem ValidRun.decodeRun_runValue (h : ValidRun params run) :
    decodeRun params (runValue params run) = run := by
  have hsymbol := h.symbol_lt
  rw [decodeRun, h.toNat_runValue.1, symbolMask_eq, Nat.and_two_pow_sub_one_eq_mod,
    Nat.shiftRight_eq_div_pow, Nat.mul_comm, Nat.mul_add_mod, Nat.mod_eq_of_lt hsymbol,
    Nat.mul_add_div (Nat.two_pow_pos _), Nat.div_eq_of_lt hsymbol, Nat.add_zero]

theorem ValidRun.encodeRun_eq (h : ValidRun params run) :
    encodeRun params run.symbol run.length = some (runValue params run) := by
  rw [encodeRun, if_pos h.2.2, if_pos h.2.1, runValue]

theorem codeLength_pos : 0 < codeLength params run := by
  rw [codeLength, UInt64Codec.length]
  split_ifs
  · exact Nat.one_pos
  · exact Nat.lt_of_lt_of_le Nat.one_pos (Nat.le_add_right 1 _)

theorem ValidRun.codeLength_le (h : ValidRun params run) : codeLength params run ≤ 8 := by
  by_cases hshort : (runValue params run).toNat < UInt64Codec.UpperBound - 1
  · rw [codeLength, UInt64Codec.length, if_pos hshort]
    exact Nat.le_add_left 1 7
  · have hbytes : byteLen (runValue params run).toNat ≤ 7 :=
      byteLen_le_iff.mpr h.toNat_runValue.2
    rw [codeLength, UInt64Codec.length_long hshort]
    omega

end Runs

section Rows

variable (params : Params)

def codeLengths (runs : List (Run ℕ)) : ℕ := (runs.map (codeLength params)).sum

def codesOf : ℕ → List (Run ℕ) → List Code
  | _, [] => []
  | pos, run :: runs =>
    ⟨pos, codeLength params run, run⟩ :: codesOf (pos + codeLength params run) runs

def codesBefore (limit : ℕ) : ℕ → List (Run ℕ) → ℕ
  | _, [] => 0
  | pos, run :: runs =>
    if pos < limit then codesBefore limit (pos + codeLength params run) runs + 1 else 0

def Seq.Coded (seq : Seq params.symbols) : ℕ → List (Run ℕ) → Prop
  | pos, [] => pos = seq.dataSize
  | pos, run :: runs =>
    ValidRun params run ∧
      (∀ i < codeLength params run,
        seq.symbols (pos + i) = UInt64Codec.code (runValue params run) i) ∧
      Seq.Coded seq (pos + codeLength params run) runs

structure Seq.Holds (seq : Seq params.symbols) (runs : List (Run ℕ)) : Prop where
  size_eq : seq.size = (Run.expand runs).length
  coded : seq.Coded params 0 runs
  data_le : seq.dataSize ≤ seq.symbolsSize
  index : ∀ index, seq.index = some index → index.UpToDate params seq

variable {params} {seq : Seq params.symbols} {run : Run ℕ} {runs runs' : List (Run ℕ)}
variable {pos limit : ℕ}

theorem codeLengths_cons :
    codeLengths params (run :: runs) = codeLength params run + codeLengths params runs := by
  rw [codeLengths, codeLengths, List.map_cons, List.sum_cons]

theorem codeLengths_append :
    codeLengths params (runs ++ runs') = codeLengths params runs + codeLengths params runs' := by
  rw [codeLengths, codeLengths, codeLengths, List.map_append, List.sum_append]

theorem map_codesOf {β : Type} (f : Run ℕ → β) (pos : ℕ) (runs : List (Run ℕ)) :
    (codesOf params pos runs).map (fun code => f code.run) = runs.map f := by
  induction runs generalizing pos with
  | nil => rfl
  | cons run runs ih => rw [codesOf, List.map_cons, List.map_cons, ih]

/-- The end of the last code. -/
theorem getLast_codesOf (pos : ℕ) (runs : List (Run ℕ)) :
    ((codesOf params pos runs).getLast?.map fun code => code.pos + code.len).getD pos =
      pos + codeLengths params runs := by
  induction runs generalizing pos with
  | nil => rfl
  | cons run runs ih =>
      rw [codesOf, codeLengths_cons, ← Nat.add_assoc, ← ih]
      cases hlast : (codesOf params (pos + codeLength params run) runs).getLast? with
      | none =>
          rw [List.getLast?_eq_none_iff] at hlast
          rw [hlast]
          rfl
      | some code => rw [List.getLast?_cons, hlast]; rfl

theorem Seq.Coded.append (h : seq.Coded params pos (runs ++ runs')) :
    seq.Coded params (pos + codeLengths params runs) runs' := by
  induction runs generalizing pos with
  | nil => exact h
  | cons run runs ih =>
      rw [codeLengths_cons, ← Nat.add_assoc]
      exact ih h.2.2

theorem Seq.Coded.valid (h : seq.Coded params pos runs) : ∀ run ∈ runs, ValidRun params run := by
  induction runs generalizing pos with
  | nil => exact nofun
  | cons run runs ih => exact List.forall_mem_cons.mpr ⟨h.1, ih h.2.2⟩

theorem Seq.Coded.dataSize_eq (h : seq.Coded params pos runs) :
    pos + codeLengths params runs = seq.dataSize := by
  have hend : seq.Coded params pos (runs ++ []) := by rwa [List.append_nil]
  exact hend.append

/-- The run that stands at the head of the data is the one that is decoded. -/
theorem Seq.Coded.decode_eq (h : seq.Coded params pos (run :: runs)) :
    seq.decode params pos = (run, codeLength params run) := by
  have hread := ((UInt64Codec.codes h.1.toNat_runValue.2).reads seq.symbols pos trivial h.2.1).2
  have hdecode : UInt64Codec.decode seq.symbols pos = (runValue params run, codeLength params run) :=
    hread
  rw [Seq.decode, hdecode]
  dsimp only
  rw [h.1.decodeRun_runValue]

theorem Seq.Coded.lt_dataSize (h : seq.Coded params pos (run :: runs)) : pos < seq.dataSize := by
  have hend := h.dataSize_eq
  have hpos := @codeLength_pos params run
  rw [codeLengths_cons] at hend
  omega

theorem Seq.Coded.codesFrom_eq (h : seq.Coded params pos runs) (hlimit : limit ≤ seq.dataSize)
    {fuel : ℕ} (hfuel : limit - pos ≤ fuel) :
    seq.codesFrom params limit fuel pos =
      codesOf params pos (runs.take (codesBefore params limit pos runs)) := by
  induction fuel generalizing pos runs with
  | zero =>
      have hstop : codesBefore params limit pos runs = 0 := by
        cases runs with
        | nil => rfl
        | cons run runs => rw [codesBefore, if_neg (by omega)]
      rw [hstop]
      rfl
  | succ fuel ih =>
      cases runs with
      | nil =>
          have hend : pos = seq.dataSize := h
          rw [Seq.codesFrom, if_neg (by omega)]
          rfl
      | cons run runs =>
          have hpos := @codeLength_pos params run
          rw [Seq.codesFrom, codesBefore]
          split_ifs with hlt
          · rw [h.decode_eq]
            dsimp only
            rw [ih h.2.2 (by omega), List.take_succ_cons, codesOf]
          · rfl

theorem Seq.Coded.codes_eq (h : seq.Coded params pos runs) (hlimit : limit ≤ seq.dataSize) :
    seq.codes params limit pos =
      codesOf params pos (runs.take (codesBefore params limit pos runs)) :=
  h.codesFrom_eq hlimit (Nat.le_refl _)

theorem codesBefore_le : codesBefore params limit pos runs ≤ runs.length := by
  induction runs generalizing pos with
  | nil => exact Nat.le_refl 0
  | cons run runs ih =>
      rw [codesBefore]
      split_ifs
      · exact Nat.succ_le_succ ih
      · exact Nat.zero_le _

/-- Every code begins in front of the end of the data. -/
theorem Seq.Coded.codesBefore_eq (h : seq.Coded params pos runs) (hlimit : seq.dataSize ≤ limit) :
    codesBefore params limit pos runs = runs.length := by
  induction runs generalizing pos with
  | nil => rfl
  | cons run runs ih =>
      have hlt := h.lt_dataSize
      rw [codesBefore, if_pos (by omega), ih h.2.2, List.length_cons]

/-- The loop to the end of the data. -/
theorem Seq.Coded.rest_eq (h : seq.Coded params pos runs) :
    seq.rest params pos = codesOf params pos runs := by
  rw [Seq.rest, Seq.codes, h.codesFrom_eq (Nat.le_refl _) (Nat.le_refl _),
    h.codesBefore_eq (Nat.le_refl _), List.take_length]

theorem Seq.Coded.codesBefore_min (h : seq.Coded params pos runs) :
    codesBefore params (min limit seq.dataSize) pos runs = codesBefore params limit pos runs := by
  rcases Nat.le_total limit seq.dataSize with hle | hle
  · rw [Nat.min_eq_left hle]
  · rw [Nat.min_eq_right hle, h.codesBefore_eq (Nat.le_refl _), h.codesBefore_eq hle]

theorem codesBefore_of_le (hle : limit ≤ pos) : codesBefore params limit pos runs = 0 := by
  cases runs with
  | nil => rfl
  | cons run runs => rw [codesBefore, if_neg (Nat.not_lt.mpr hle)]

/-- Behind a cut the next one counts on. -/
theorem codesBefore_drop {limit' : ℕ} (hle : limit ≤ limit') :
    codesBefore params limit pos runs + codesBefore params limit'
        (pos + codeLengths params (runs.take (codesBefore params limit pos runs)))
        (runs.drop (codesBefore params limit pos runs)) =
      codesBefore params limit' pos runs := by
  induction runs generalizing pos with
  | nil => rfl
  | cons run runs ih =>
      rw [codesBefore]
      split_ifs with hlt
      · rw [List.take_succ_cons, List.drop_succ_cons, codeLengths_cons, codesBefore,
          if_pos (Nat.lt_of_lt_of_le hlt hle), ← ih, Nat.add_assoc pos]
        omega
      · rw [Nat.zero_add]
        rfl

/-- A cut is behind the limit, unless all the codes are in front of it. -/
theorem le_of_codesBefore (hcut : codesBefore params limit pos runs < runs.length) :
    limit ≤ pos + codeLengths params (runs.take (codesBefore params limit pos runs)) := by
  induction runs generalizing pos with
  | nil => exact absurd hcut (Nat.lt_irrefl 0)
  | cons run runs ih =>
      rw [codesBefore] at hcut ⊢
      split_ifs at hcut ⊢ with hlt
      · rw [List.take_succ_cons, codeLengths_cons, ← Nat.add_assoc]
        exact ih (Nat.lt_of_succ_lt_succ hcut)
      · exact (Nat.le_of_not_lt hlt).trans (Nat.le_add_right _ _)

/-- The last code in front of the limit is not long enough to end far behind it. -/
theorem lt_of_codesBefore (hvalid : ∀ run ∈ runs, ValidRun params run) (hpos : pos < limit + 8) :
    pos + codeLengths params (runs.take (codesBefore params limit pos runs)) < limit + 8 := by
  induction runs generalizing pos with
  | nil => exact hpos
  | cons run runs ih =>
      have hlength := (hvalid run List.mem_cons_self).codeLength_le
      rw [codesBefore]
      split_ifs with hlt
      · rw [List.take_succ_cons, codeLengths_cons, ← Nat.add_assoc]
        exact ih (fun r hr => hvalid r (List.mem_cons_of_mem run hr)) (by omega)
      · exact hpos

/-- A code in front of a cut begins in front of the limit. -/
theorem lt_limit_of_codesBefore {k : ℕ} (hk : k < codesBefore params limit pos runs) :
    pos + codeLengths params (runs.take k) < limit := by
  induction runs generalizing pos k with
  | nil => exact absurd hk (Nat.not_lt_zero k)
  | cons run runs ih =>
      rw [codesBefore] at hk
      split_ifs at hk with hlt
      · cases k with
        | zero => exact hlt
        | succ k =>
            rw [List.take_succ_cons, codeLengths_cons, ← Nat.add_assoc]
            exact ih (Nat.lt_of_succ_lt_succ hk)
      · exact absurd hk (Nat.not_lt_zero k)

end Rows

end Memoria.RleSeq

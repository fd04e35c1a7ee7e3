import Memoria.Lib.Run
import Memoria.RleSeq

/-!
# Iterators over sequences of runs

`RLESeqIterator`, and the functions of `PkdRLESeq` that fill a buffer of runs from one. `none` is an
exception, or a loop that does not end within its fuel.
-/

namespace Memoria.RleSeq

open Lib

abbrev SymbolsBuffer : Type := List (Run ℕ)

namespace SymbolsBuffer

def splitHead (buffer : SymbolsBuffer) : SymbolsBuffer :=
  match buffer.getLast? with
  | some element =>
    if element.length > 1 then
      buffer.dropLast ++ [⟨element.symbol, element.length - 1⟩, ⟨element.symbol, 1⟩]
    else buffer
  | none => buffer

def appendRun (lastSymbol symbol length : ℕ) (buffer : SymbolsBuffer) : SymbolsBuffer :=
  match buffer.getLast? with
  | none => [⟨symbol, length⟩]
  | some head =>
    if head.symbol ≠ symbol then
      (if head.symbol < lastSymbol then buffer.splitHead else buffer) ++ [⟨symbol, length⟩]
    else buffer.dropLast ++ [⟨head.symbol, head.length + length⟩]

def finish (lastSymbol : ℕ) (buffer : SymbolsBuffer) : SymbolsBuffer :=
  match buffer.getLast? with
  | some head => if head.symbol < lastSymbol then buffer.splitHead else buffer
  | none => buffer

end SymbolsBuffer

structure Iterator where
  dataPos : ℕ
  runPrefix : ℕ
  localIdx : ℕ
  run : Run ℕ

namespace Iterator

variable (params : Params) (seq : Seq params.symbols)

def make (dataPos localIdx runPrefix : ℕ) (run : Run ℕ) : Option Iterator :=
  if dataPos < seq.dataSize then do
    let value ← encodeRun params run.symbol run.length
    some ⟨dataPos + UInt64Codec.length value, runPrefix, localIdx, run⟩
  else some ⟨dataPos, runPrefix, localIdx, run⟩

def remainingRunLength (it : Iterator) : ℕ := it.run.length - it.localIdx

def localPos (it : Iterator) : ℕ := it.runPrefix + it.localIdx

def hasData (it : Iterator) : Bool :=
  decide (it.localIdx < it.run.length) || decide (it.dataPos < seq.dataSize)

def nextRun (it : Iterator) : Iterator :=
  if it.dataPos < seq.dataSize then
    let (run, len) := seq.decode params it.dataPos
    ⟨it.dataPos + len, it.runPrefix + it.run.length, 0, run⟩
  else { it with localIdx := it.run.length }

def next (it : Iterator) : Iterator :=
  if it.localIdx + 1 < it.run.length then { it with localIdx := it.localIdx + 1 }
  else { it with localIdx := it.localIdx + 1 }.nextRun params seq

end Iterator

inductive Step where
  | symbol
  | run

section Steps

variable (params : Params) (seq : Seq params.symbols)

def Iterator.passed (it : Iterator) : Step → List ℕ
  | .symbol => [it.run.symbol]
  | .run => List.replicate it.remainingRunLength it.run.symbol

def Iterator.step (state : Iterator × List ℕ) (step : Step) : Option (Iterator × List ℕ) :=
  if state.1.hasData params seq then
    let it := match step with
      | .symbol => state.1.next params seq
      | .run => state.1.nextRun params seq
    some (it, state.2 ++ state.1.passed step)
  else none

end Steps

namespace Seq

variable (params : Params) (seq : Seq params.symbols)

def iterator (symbolPos : ℕ) : Option Iterator :=
  if symbolPos < seq.size then do
    let result ← seq.findRun params symbolPos
    Iterator.make params seq result.dataPos result.localIdx result.runBase result.run
  else Iterator.make params seq seq.dataSize seq.size 0 ⟨0, 0⟩

def populateWhileLoop (symbol : ℕ) : ℕ → Iterator → SymbolsBuffer → Option (SymbolsBuffer × ℕ)
  | 0, _, _ => none
  | fuel + 1, it, buffer =>
    if it.hasData params seq then
      if it.run.symbol ≥ symbol then
        populateWhileLoop symbol fuel (it.nextRun params seq)
          (buffer.appendRun (params.symbols - 1) it.run.symbol it.remainingRunLength)
      else some (buffer.finish (params.symbols - 1), it.localPos)
    else some (buffer.finish (params.symbols - 1), seq.size)

def populateWhile (fuel : ℕ) (buffer : SymbolsBuffer) (idx symbol : ℕ) :
    Option (SymbolsBuffer × ℕ) := do
  let it ← seq.iterator params idx
  seq.populateWhileLoop params symbol fuel it buffer

def populateLoop (size : ℕ) : ℕ → Iterator → ℕ → SymbolsBuffer → Option (SymbolsBuffer × ℕ)
  | 0, _, _, _ => none
  | fuel + 1, it, total, buffer =>
    if it.hasData params seq then
      let len := it.remainingRunLength
      if len + total ≤ size then
        populateLoop size fuel (it.nextRun params seq) (total + len)
          (buffer.appendRun (params.symbols - 1) it.run.symbol len)
      else
        let remaining := size - total
        populateLoop size fuel it (total + remaining)
          (buffer.appendRun (params.symbols - 1) it.run.symbol remaining)
    else some (buffer.finish (params.symbols - 1), total)

def populate (fuel : ℕ) (buffer : SymbolsBuffer) (idx size : ℕ) : Option (SymbolsBuffer × ℕ) := do
  let it ← seq.iterator params idx
  let (buffer, total) ← seq.populateLoop params size fuel it 0 buffer
  some (buffer, idx + total)

end Seq

end Memoria.RleSeq

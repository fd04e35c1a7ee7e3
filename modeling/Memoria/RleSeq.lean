import Memoria.BitSelect
import Memoria.ByteCodecs
import Memoria.FseSearch
import Memoria.Lib.Runs

/-!
# Sequences of symbols as runs

`PkdRLESeq` keeps runs of symbols as codes of one number each. The index, if there is one, has the
number of symbols in the codes that begin in a block of bytes, the number of occurrences of each
symbol in them, and the offset of the first of them. `none` is an exception, or a sum that an index
does not give. A rank is a number: in the source it is a `uint64_t`, and a rank that is searched for
from a position on is taken to stay below 2 ^ 64 with the rank of the position added.
-/

namespace Memoria.RleSeq

open Lib FseTree

structure Params where
  symbols : ℕ
  bytesPerBlock : ℕ
  tree : FseTree.Params ℕ
  symbols_pos : 0 < symbols
  symbols_le : symbols ≤ 256
  bytes_pos : 0 < bytesPerBlock

def maxRLERunLength : ℕ := 0x7FFFFFF

section Runs

variable (params : Params)

def bitsPerSymbol : ℕ := (params.symbols - 1).size

def symbolMask : ℕ := (1 <<< bitsPerSymbol params) - 1

def decodeRun (value : BitVec 64) : Run ℕ :=
  ⟨value.toNat &&& symbolMask params, value.toNat >>> bitsPerSymbol params⟩

def encodeRun (symbol length : ℕ) : Option (BitVec 64) :=
  if length ≤ maxRLERunLength then
    if 0 < length then
      some (BitVec.ofNat 64 (symbol &&& symbolMask params ||| length <<< bitsPerSymbol params))
    else none
  else none

end Runs

structure Index (symbols : ℕ) where
  sizeIndex : Tree ℕ 1
  sumIndex : Tree ℕ symbols
  offsets : List ℕ

structure Seq (alphabet : ℕ) where
  size : ℕ
  dataSize : ℕ
  symbolsSize : ℕ
  symbols : Cells 8
  index : Option (Index alphabet)

structure Code where
  pos : ℕ
  len : ℕ
  run : Run ℕ

section Reading

variable (params : Params) (seq : Seq params.symbols)

def Seq.decode (pos : ℕ) : Run ℕ × ℕ :=
  let (value, len) := UInt64Codec.decode seq.symbols pos
  (decodeRun params value, len)

def Seq.codesFrom (limit : ℕ) : ℕ → ℕ → List Code
  | 0, _ => []
  | fuel + 1, pos =>
    if pos < limit then
      let (run, len) := seq.decode params pos
      ⟨pos, len, run⟩ :: Seq.codesFrom limit fuel (pos + len)
    else []

def Seq.codes (limit pos : ℕ) : List Code := seq.codesFrom params limit (limit - pos) pos

end Reading

section Reindex

variable (params : Params) (seq : Seq params.symbols)

def numberOfOffsets (values : ℕ) : ℕ := if 0 < values then divUp values params.bytesPerBlock else 1

structure Block where
  offset : ℕ
  codes : List Code

def Seq.blocksFrom : ℕ → ℕ → ℕ → List Block
  | 0, _, _ => []
  | n + 1, limit, dataPos =>
    let codes := seq.codes params limit dataPos
    let next := if limit + params.bytesPerBlock < seq.dataSize then limit + params.bytesPerBlock
      else seq.dataSize
    ⟨dataPos % params.bytesPerBlock % 256, codes⟩ ::
      Seq.blocksFrom n next ((codes.getLast?.map fun code => code.pos + code.len).getD dataPos)

def Seq.blocks : List Block :=
  seq.blocksFrom params (numberOfOffsets params seq.symbolsSize)
    (if seq.dataSize < params.bytesPerBlock then seq.dataSize else params.bytesPerBlock) 0

def Block.size (block : Block) : ℕ := (block.codes.map fun code => code.run.length).sum

def Block.sum (block : Block) (symbol : ℕ) : ℕ :=
  (block.codes.map fun code => if code.run.symbol = symbol then code.run.length else 0).sum

structure Index.UpToDate (index : Index params.symbols) : Prop where
  sizes : index.sizeIndex.Searchable params.tree
    ((seq.blocks params).map fun block _ => block.size)
  sums : index.sumIndex.Searchable params.tree
    ((seq.blocks params).map fun block symbol => block.sum symbol)
  offsets : index.offsets = (seq.blocks params).map fun block => block.offset

end Reindex

structure Location where
  dataPos : ℕ
  dataLength : ℕ
  localIdx : ℕ
  blockBase : ℕ
  runBase : ℕ
  run : Run ℕ
  outOfRange : Bool

structure CountResult where
  count : ℕ
  symbol : ℤ
deriving DecidableEq

section Loops

def locateRun (idx sizeBase : ℕ) : List Code → ℕ → Option Location
  | [], _ => none
  | code :: codes, base =>
    if idx ≥ base + code.run.length then locateRun idx sizeBase codes (base + code.run.length)
    else some ⟨code.pos, code.len, idx - base, sizeBase, base, code.run, false⟩

def blockRank (idx symbol : ℕ) : List Code → ℕ → ℕ → ℕ
  | [], _, rank => rank
  | code :: codes, runBase, rank =>
    if code.run.symbol = symbol then
      if idx ≥ runBase + code.run.length then
        blockRank idx symbol codes (runBase + code.run.length) (rank + code.run.length)
      else rank + idx - runBase
    else if idx < runBase + code.run.length then rank
    else blockRank idx symbol codes (runBase + code.run.length) rank

def blockSelect (rank blockSizePrefix symbol : ℕ) : List Code → ℕ → ℕ → BitBuffer.SelectResult
  | [], runBase, rankBase => ⟨runBase + blockSizePrefix, rankBase, false⟩
  | code :: codes, runBase, rankBase =>
    if code.run.symbol = symbol then
      if rank > rankBase + code.run.length then
        blockSelect rank blockSizePrefix symbol codes (runBase + code.run.length)
          (rankBase + code.run.length)
      else
        let localIdx := rank - rankBase - 1
        ⟨runBase + blockSizePrefix + localIdx, rankBase + localIdx + 1, true⟩
    else blockSelect rank blockSizePrefix symbol codes (runBase + code.run.length) rankBase

def blockSelectGe (size rank blockSizePrefix symbol : ℕ) : List Code → ℕ → ℕ → BitBuffer.SelectResult
  | [], _, rankBase => ⟨size, rankBase, false⟩
  | code :: codes, runBase, rankBase =>
    if code.run.symbol = symbol then
      if rank > rankBase + code.run.length then
        blockSelectGe size rank blockSizePrefix symbol codes (runBase + code.run.length)
          (rankBase + code.run.length)
      else
        let localIdx := rank - rankBase - 1
        ⟨runBase + blockSizePrefix + localIdx, rankBase + localIdx + 1, true⟩
    else if code.run.symbol < symbol then ⟨runBase + blockSizePrefix, rankBase + 1, true⟩
    else blockSelectGe size rank blockSizePrefix symbol codes (runBase + code.run.length) rankBase

def blockCountFw : List Code → ℕ → ℕ → ℤ → CountResult
  | [], _, count, lastSymbol => ⟨count, lastSymbol⟩
  | code :: codes, localPos, count, lastSymbol =>
    if (code.run.symbol : ℤ) = lastSymbol ∨ lastSymbol = -1 then
      blockCountFw codes 0 (count + (code.run.length - localPos)) code.run.symbol
    else ⟨count, lastSymbol⟩

def blockCountBw (startPos : ℕ) : List Code → ℕ → ℕ → ℤ → Option CountResult
  | [], _, _, _ => none
  | code :: codes, count, runBase, lastSymbol =>
    let count := if (code.run.symbol : ℤ) ≠ lastSymbol then 0 else count
    if startPos ≥ runBase + code.run.length then
      blockCountBw startPos codes (count + code.run.length) (runBase + code.run.length)
        code.run.symbol
    else some ⟨count + startPos - runBase + 1, code.run.symbol⟩

end Loops

namespace Seq

variable (params : Params) (seq : Seq params.symbols)

def rest (pos : ℕ) : List Code := seq.codes params seq.dataSize pos

def blockStart (index : Index params.symbols) (block : ℕ) : ℕ :=
  block * params.bytesPerBlock + index.offsets.getD block 0

def findRun (symbolPos : ℕ) : Option Location :=
  if symbolPos < seq.size then
    match seq.index with
    | none => locateRun symbolPos 0 (seq.rest params 0) 0
    | some index =>
      let found := index.sizeIndex.findGt params.tree 0 symbolPos
      locateRun (symbolPos - found.sum) found.sum
        (seq.rest params (blockStart params index found.localPos.toNat)) 0
  else some ⟨seq.dataSize, 0, 0, seq.dataSize, symbolPos, ⟨0, 0⟩, true⟩

def getSymbol (idx : ℕ) : Option ℕ := do
  let result ← seq.findRun params idx
  if result.outOfRange then none else some result.run.symbol

def rankTo (stop : ℕ) (symbol : Fin params.symbols) : Option ℕ :=
  match seq.index with
  | none => some (blockRank stop symbol (seq.rest params 0) 0 0)
  | some index =>
    if stop < seq.size then do
      let location ← seq.findRun params stop
      let block := location.dataPos / params.bytesPerBlock
      let rankBase ← index.sumIndex.sumTo params.tree symbol block
      some (blockRank (stop - location.blockBase) symbol
        (seq.rest params (blockStart params index block)) 0 0 + rankBase)
    else index.sumIndex.sum params.tree symbol

def rank (symbol : Fin params.symbols) : Option ℕ :=
  match seq.index with
  | none => seq.rankTo params seq.size symbol
  | some index => index.sumIndex.sum params.tree symbol

def rankFromTo (start stop : ℕ) (symbol : Fin params.symbols) : Option ℕ := do
  let rankStart ← seq.rankTo params start symbol
  let rankEnd ← seq.rankTo params stop symbol
  some (rankEnd - rankStart)

def selectFW (rank : ℕ) (symbol : Fin params.symbols) : Option BitBuffer.SelectResult :=
  match seq.index with
  | none => some (blockSelect rank 0 symbol (seq.rest params 0) 0 0)
  | some index =>
    let found := index.sumIndex.findGe params.tree symbol rank
    if found.localPos < index.sumIndex.size then do
      let block := found.localPos.toNat
      let blockSizeStart ← index.sizeIndex.sumTo params.tree 0 block
      let result := blockSelect (rank - found.sum) blockSizeStart symbol
        (seq.rest params (blockStart params index block)) 0 0
      some { result with rank := result.rank + found.sum }
    else some ⟨seq.size, found.sum, false⟩

def selectFWFrom (pos : ℤ) (rank : ℕ) (symbol : Fin params.symbols) : Option BitBuffer.SelectResult :=
  if pos < seq.size then do
    let rankPrefix ← seq.rankTo params (pos + 1).toNat symbol
    let result ← seq.selectFW params (rankPrefix + rank) symbol
    some { result with rank := result.rank - rankPrefix }
  else some ⟨seq.size, 0, false⟩

def selectBWFrom (pos rank : ℕ) (symbol : Fin params.symbols) : Option BitBuffer.SelectResult := do
  let rankPrefix ← seq.rankTo params pos symbol
  if rankPrefix ≥ rank then do
    let result ← seq.selectFW params (rankPrefix - (rank - 1)) symbol
    some { result with rank := if result.found then rank else rankPrefix }
  else some ⟨0, rankPrefix, false⟩

def selectBW (rank : ℕ) (symbol : Fin params.symbols) : Option BitBuffer.SelectResult :=
  seq.selectBWFrom params seq.size rank symbol

def selectGEFW (rank : ℕ) (symbol : Fin params.symbols) : BitBuffer.SelectResult :=
  blockSelectGe seq.size rank 0 symbol (seq.rest params 0) 0 0

def selectGEFWFrom (pos rank : ℕ) (symbol : Fin params.symbols) : Option BitBuffer.SelectResult := do
  let location ← seq.findRun params pos
  if location.run.symbol = symbol then
    let result := blockSelectGe seq.size (rank + (location.localIdx + 1))
      (location.blockBase + location.runBase) symbol (seq.rest params location.dataPos) 0 0
    some { result with rank := result.rank - (location.localIdx + 1) }
  else
    some (blockSelectGe seq.size rank (location.blockBase + location.runBase) symbol
      (seq.rest params location.dataPos) 0 0)

def countFW (startPos : ℕ) : Option CountResult := do
  let location ← seq.findRun params startPos
  some (blockCountFw (seq.rest params location.dataPos) location.localIdx 0 (-1))

def countBW (startPos : ℕ) : Option CountResult :=
  blockCountBw startPos (seq.rest params 0) 0 0 (-1)

end Seq

def scanSelectFW (symbols : List ℕ) (start rank symbol : ℕ) : BitBuffer.SelectResult :=
  match select symbol (symbols.drop start) (rank - 1) with
  | some i => ⟨start + i, rank, true⟩
  | none => ⟨symbols.length, (symbols.drop start).count symbol, false⟩

def scanSelectBW (symbols : List ℕ) (stop rank symbol : ℕ) : BitBuffer.SelectResult :=
  match select symbol (symbols.take stop).reverse (rank - 1) with
  | some i => ⟨stop - 1 - i, rank, true⟩
  | none => ⟨0, (symbols.take stop).count symbol, false⟩

def headCount (symbol : ℕ) (symbols : List ℕ) : ℕ := (symbols.takeWhile (· = symbol)).length

def Seq.withoutIndex {alphabet : ℕ} (seq : Seq alphabet) : Seq alphabet := { seq with index := none }

end Memoria.RleSeq

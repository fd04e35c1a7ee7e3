import Memoria.RleIterator

/-!
# The entries scanner of a multimap

A multimap has two data streams, the keys and the values, and a structure stream with a symbol for
each key and each value, the values of a key behind it. The scanner goes from leaf to leaf. In a
leaf it knows the values of an entry that has begun before (the prefix), the entries that lie in the
leaf whole, and one that may go on in the next leaf (the suffix). `none` is an exception.
-/

namespace Memoria.Multimap

open Lib Run RleSeq

inductive Item (K V : Type) where
  | key (key : K)
  | value (value : V)
  deriving DecidableEq

variable {K V : Type}

namespace Item

def symbol : Item K V → ℕ
  | .key _ => 0
  | .value _ => 1

def key? : Item K V → Option K
  | .key k => some k
  | .value _ => none

def value? : Item K V → Option V
  | .key _ => none
  | .value v => some v

end Item

def itemsOf (entries : List (K × List V)) : List (Item K V) :=
  entries.flatMap fun (k, vs) => .key k :: vs.map .value

structure Leaf (K V : Type) where
  symbolSequence : List (Run ℕ)
  keys : List K
  values : List V

structure Leaf.Holds (leaf : Leaf K V) (items : List (Item K V)) : Prop where
  symbols : expand leaf.symbolSequence = items.map Item.symbol
  runs_pos : ∀ run ∈ leaf.symbolSequence, 0 < run.length
  keys : leaf.keys = items.filterMap Item.key?
  values : leaf.values = items.filterMap Item.value?

structure Tree (K V : Type) where
  entries : List (K × List V)
  parts : List (List (Item K V))
  first : Leaf K V
  rest : List (Leaf K V)
  joined : parts.flatten = itemsOf entries
  holds : List.Forall₂ Leaf.Holds (first :: rest) parts
  nonempty : rest = [] ∨ ∀ part ∈ parts, part ≠ []

def runsFrom : ℕ → List (Run ℕ) → List (Run ℕ)
  | _, [] => []
  | idx, run :: runs =>
      if run.length ≤ idx then runsFrom (idx - run.length) runs
      else ⟨run.symbol, run.length - idx⟩ :: runs

/-- `populate_buffer(buffer, idx)` with an empty buffer and the last symbol 1: the iterator from
`idx` on goes from run to run. -/
def populateBuffer (runs : List (Run ℕ)) (idx : ℕ) : SymbolsBuffer :=
  SymbolsBuffer.finish 1
    ((runsFrom idx runs).foldl
      (fun buffer run => SymbolsBuffer.appendRun 1 run.symbol run.length buffer) [])

structure Parser where
  processPrefix : Bool
  prefixSize : ℕ
  suffixSize : ℕ
  buffer : SymbolsBuffer
  startIdx : ℕ

namespace Parser

def new (startIdx : ℕ) : Parser := ⟨false, 0, 0, [], startIdx⟩

/-- The sizes of the prefix and the suffix of a buffer of more than two runs, which are counted in
runs. -/
def parseLong (parser : Parser) (firstSymbol lastSymbol : ℕ) : Option (ℕ × ℕ) :=
  let suffixSize := if lastSymbol = 1 then 2 else 1
  if parser.processPrefix then some (if firstSymbol = 1 then 1 else 0, suffixSize)
  else if firstSymbol = 1 then none
  else some (parser.prefixSize, suffixSize)

/-- `parse`: the runs of the sequence, and which of them are those of the prefix and the suffix. -/
def parse (sequence : List (Run ℕ)) (parser : Parser) : Option Parser := do
  let buffer := populateBuffer sequence parser.startIdx
  let (prefixSize, suffixSize) ←
    match buffer with
    | [] => some (0, 0)
    | [run] => if run.symbol = 0 then some (0, 1) else some (1, 0)
    | [run, run'] =>
        if run.symbol = 0 ∧ run'.symbol = 1 then some (0, 2)
        else if run.symbol = 1 ∧ run'.symbol = 0 then some (1, 1)
        else none
    | run :: run' :: run'' :: runs =>
        parser.parseLong run.symbol ((run' :: run'' :: runs).getLast (List.cons_ne_nil _ _)).symbol
  some ⟨true, prefixSize, suffixSize, buffer, 0⟩

end Parser

/-- `MMapValueGroupsAdapter::populate`, over `count` runs of the buffer from one on, with the values
from the one that is read next on: the groups of values, the number of values in them, and the
number of keys. -/
def populateGroups : ℕ → SymbolsBuffer → List V → Option (List (List V) × ℕ × ℕ)
  | 0, _, _ => some ([], 0, 0)
  | _ + 1, [], _ => none
  | count + 1, run :: runs, values =>
      if run.symbol = 0 then
        if run.length = 1 then
          match runs with
          | [] => none
          | next :: runs' =>
              if next.symbol = 1 then do
                let (groups, size, keys) ←
                  populateGroups (count - 1) runs' (values.drop next.length)
                some (values.take next.length :: groups, next.length + size, keys + 1)
              else do
                let (groups, size, keys) ← populateGroups count (next :: runs') values
                some ([] :: groups, size, keys + 1)
        else do
          -- a series of keys without values, which counts as one key
          let (groups, size, keys) ← populateGroups count runs values
          some (List.replicate run.length [] ++ groups, size, keys + 1)
      else none

structure Scanner (K V : Type) where
  leaf : Leaf K V
  localPos : ℕ
  parser : Parser
  keys : List K
  values : List (List V)
  lead : List V
  hasSuffix : Bool
  suffixKey : K
  suffix : List V
  suffixStart : ℕ
  suffixBuffer : List V

namespace Scanner

variable [Inhabited K]

def buildIndex (offsets : ℕ × ℕ) (scanner : Scanner K V) : Option (Scanner K V) := do
  let leaf := scanner.leaf
  let parser ← scanner.parser.parse leaf.symbolSequence
  let buffer := parser.buffer
  let lead :=
    if parser.prefixSize > 0 then leaf.values.take (buffer.getD 0 ⟨0, 0⟩).length else []
  let valueOffset := offsets.2 + lead.length
  let bodyEnd := buffer.length - parser.suffixSize
  let (groups, size, numKeys) ←
    populateGroups (bodyEnd - parser.prefixSize) (buffer.drop parser.prefixSize)
      (leaf.values.drop valueOffset)
  let suffixStart := valueOffset + size
  let keys := (leaf.keys.drop offsets.1).take numKeys
  let scanner := { scanner with
    parser := parser, lead := lead, keys := keys, values := groups, suffixStart := suffixStart,
    hasSuffix := true, suffix := [] }
  if parser.suffixSize = 2 then
    some { scanner with
      suffixKey := leaf.keys.getD (offsets.1 + numKeys) default
      suffix := (leaf.values.drop suffixStart).take (buffer.getD (bodyEnd + 1) ⟨0, 0⟩).length }
  else if parser.suffixSize = 1 then
    some { scanner with suffixKey := leaf.keys.getD (offsets.1 + numKeys) default }
  else some { scanner with hasSuffix := false }

def new (leaf : Leaf K V) (localPos : ℕ) : Option (Scanner K V) :=
  let before := (expand leaf.symbolSequence).take localPos
  buildIndex (before.count 0, before.count 1)
    ⟨leaf, localPos, .new localPos, [], [], [], false, default, [], 0, []⟩

def isEnd (scanner : Scanner K V) : Bool :=
  decide ((expand scanner.leaf.symbolSequence).length ≤ scanner.localPos)

def nextLeaf (leaf : Leaf K V) (scanner : Scanner K V) : Option (Scanner K V) :=
  buildIndex (0, 0) { scanner with leaf := leaf, localPos := 0 }

end Scanner

structure Call (K V : Type) where
  seqId : ℕ
  key : K
  values : List V
  start : Bool
  finish : Bool

section ForEach

variable [Inhabited K]

def bodyCalls (seqId : ℕ) (keys : List K) (values : List (List V)) : List (Call K V) :=
  (keys.zip values).mapIdx fun c (key, vs) => ⟨seqId + c, key, vs, true, true⟩

/-- The loop of `for_each(EntryProcessorFn)`, with the leaves behind the one of the scanner. -/
def forEachLoop : List (Leaf K V) → Scanner K V → Bool → ℕ → Option (List (Call K V))
  | rest, scanner, hasPrefix, seqId =>
      if scanner.isEnd then some [⟨seqId, default, [], false, true⟩]
      else
        let prefixCalls :=
          if hasPrefix then [⟨seqId, default, scanner.lead, false, scanner.hasSuffix⟩] else []
        let seqId := if hasPrefix && scanner.hasSuffix then seqId + 1 else seqId
        let wholeCalls := bodyCalls seqId scanner.keys scanner.values
        let seqId := seqId + scanner.keys.length
        let suffixCalls :=
          if scanner.hasSuffix then [⟨seqId, scanner.suffixKey, scanner.suffix, true, false⟩] else []
        let calls := prefixCalls ++ wholeCalls ++ suffixCalls
        match rest with
        | [] => some (calls ++ [⟨seqId, default, [], false, true⟩])
        | leaf :: rest => do
            let next ← scanner.nextLeaf leaf
            let more ← forEachLoop rest next (hasPrefix || scanner.hasSuffix) seqId
            some (calls ++ more)

def forEach (tree : Tree K V) : Option (List (Call K V)) := do
  let scanner ← Scanner.new tree.first 0
  if scanner.isEnd then some [] else forEachLoop tree.rest scanner false 0

/-- The loop of `fill_suffix_buffer`: the scanner goes on to the next leaf with a key, or to the
end. -/
def fillLoop : List (Leaf K V) → Scanner K V → Option (List (Leaf K V) × Scanner K V)
  | rest, scanner =>
      if scanner.isEnd then some (rest, scanner)
      else
        match rest with
        | [] => some ([], { scanner with localPos := (expand scanner.leaf.symbolSequence).length })
        | leaf :: rest => do
            let next ← scanner.nextLeaf leaf
            let next := { next with
              suffixBuffer := next.suffixBuffer ++ next.leaf.values.take next.lead.length }
            if next.hasSuffix then some (rest, next) else fillLoop rest next

def fillSuffixBuffer (rest : List (Leaf K V)) (scanner : Scanner K V) :
    Option (List (Leaf K V) × Scanner K V) :=
  fillLoop rest { scanner with
    suffixBuffer := (scanner.leaf.values.drop scanner.suffixStart).take scanner.suffix.length }

def forEachBufferedLoop : ℕ → List (Leaf K V) → Scanner K V → Bool → K →
    Option (List (K × List V))
  | 0, _, _, _, _ => none
  | fuel + 1, rest, scanner, hasPrefix, lastSuffixKey =>
      if scanner.isEnd then some [(lastSuffixKey, scanner.suffixBuffer)]
      else do
        let calls := (if hasPrefix then [(lastSuffixKey, scanner.suffixBuffer)] else []) ++
          scanner.keys.zip scanner.values
        let (rest, next) ← fillSuffixBuffer rest scanner
        let more ← forEachBufferedLoop fuel rest next true
          (if scanner.hasSuffix then scanner.suffixKey else lastSuffixKey)
        some (calls ++ more)

def forEachBuffered (fuel : ℕ) (tree : Tree K V) : Option (List (K × List V)) := do
  let scanner ← Scanner.new tree.first 0
  if scanner.isEnd then some [] else forEachBufferedLoop fuel tree.rest scanner false default

end ForEach

/-- The entries that calls deliver part by part. An entry begins with a call that says so and ends
with one that says so; the calls of an entry have its number. -/
def assemble : ℕ → Option (K × List V) → List (Call K V) → Option (List (K × List V))
  | _, none, [] => some []
  | _, some _, [] => none
  | seqId, none, call :: calls =>
      if call.start = true ∧ call.seqId = seqId then
        if call.finish then (assemble (seqId + 1) none calls).map ((call.key, call.values) :: ·)
        else assemble seqId (some (call.key, call.values)) calls
      else none
  | seqId, some (key, values), call :: calls =>
      if call.start = false ∧ call.seqId = seqId then
        if call.finish then
          (assemble (seqId + 1) none calls).map ((key, values ++ call.values) :: ·)
        else assemble seqId (some (key, values ++ call.values)) calls
      else none

def Tree.Delivers [Inhabited K] (tree : Tree K V) : Prop :=
  (∃ calls, forEach tree = some calls ∧ assemble 0 none calls = some tree.entries) ∧
    ∃ fuel, forEachBuffered fuel tree = some tree.entries

/-- No three keys stand side by side in a leaf, and no leaf has two or more keys and nothing else. -/
def Tree.Spaced (tree : Tree K V) : Prop :=
  ∀ part ∈ tree.parts, ¬ [0, 0, 0] <:+: part.map Item.symbol ∧
    ¬ (2 ≤ part.length ∧ 1 ∉ part.map Item.symbol)

end Memoria.Multimap

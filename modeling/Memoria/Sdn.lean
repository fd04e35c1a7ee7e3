import Mathlib
import Memoria.Lib.Peg

namespace Memoria.Sdn

open Peg

/-! LinkedData documents, the text `dump` writes for one and the grammar `parse` reads it with. -/

/-- Characters of a document. The grammar tests ASCII characters only, so a byte of a longer
sequence is an opaque character here. -/
abbrev Text := List Char

mutual

inductive TypeDeclaration where
  | mk (name : Text) (params : List TypeDeclaration) (args : List Value)

/-- A map is the list of its entries in the order `for_each` visits them. The type of a typed value
is a pointer: `namedValue` points at the declaration that the dictionary holds under the name, and
`typedValue` at one that it does not hold. -/
inductive Value where
  | null
  | boolean (value : Bool)
  | bigint (value : Int64)
  | double (literal : Text)
  | varchar (text : Text)
  | datum (type : Text) (constructor : Value)
  | array (values : List Value)
  | map (entries : List (Text × Value))
  | typeDecl (declaration : TypeDeclaration)
  | typedValue (type : TypeDeclaration) (constructor : Value)
  | namedValue (type : Text) (constructor : Value)

end

abbrev Dictionary := List (Text × TypeDeclaration)

structure Document where
  typeDirectory : Option Dictionary
  value : Value

def Document.namedTypes (doc : Document) : Dictionary := doc.typeDirectory.getD []

def TypeDeclaration.name : TypeDeclaration → Text
  | .mk name _ _ => name

def Value.isVarchar : Value → Bool
  | .varchar _ => true
  | _ => false

def put {α : Type} (entries : List (Text × α)) (key : Text) (value : α) : List (Text × α) :=
  if key ∈ entries.map (·.1) then entries.map fun e => if e.1 = key then (key, value) else e
  else entries ++ [(key, value)]

def putAll {α : Type} (entries : List (Text × α)) : List (Text × α) :=
  entries.foldl (fun done e => put done e.1 e.2) []

structure DumpFormatState where
  space : Text
  nlStart : Text
  nlMiddle : Text
  nlEnd : Text
  indentSize : Nat
  currentIndent : Nat

namespace DumpFormatState

def default : DumpFormatState := ⟨[' '], ['\n'], ['\n'], ['\n'], 2, 0⟩

def noIndent : DumpFormatState := ⟨[], [], [], [], 0, 0⟩

def simple : DumpFormatState := ⟨[], [], [' '], [], 0, 0⟩

def push (state : DumpFormatState) : DumpFormatState :=
  { state with currentIndent := state.currentIndent + state.indentSize }

def makeIndent (state : DumpFormatState) : Text :=
  (List.replicate state.currentIndent state.space).flatten

end DumpFormatState

/-- The common shape of every list `dump` writes: an indented item a line, commas between them. -/
def dumpItems (state : DumpFormatState) (opening closing : Text) : List Text → Text
  | [] => []
  | first :: others =>
    opening ++ state.nlStart ++ state.push.makeIndent ++ first
      ++ (others.flatMap fun item => ',' :: (state.nlMiddle ++ state.push.makeIndent ++ item))
      ++ state.nlEnd ++ state.makeIndent ++ closing

def escapeQuotes (text : Text) : Text :=
  text.flatMap fun c => if c = '\x27' then ['\\', c] else [c]

def dumpString (text : Text) : Text := '\x27' :: (escapeQuotes text ++ ['\x27'])

def dumpBigint (value : Int64) : Text :=
  if value.toInt < 0 then '-' :: Nat.toDigits 10 value.toInt.natAbs
  else Nat.toDigits 10 value.toInt.natAbs

mutual

def TypeDeclaration.isSimpleLayout (named : Text → Bool) : TypeDeclaration → Bool
  | .mk _ params args =>
    decide (params.length ≤ 3) && decide (args.length ≤ 5) && declsSimple named params
      && valuesSimple named args

def declsSimple (named : Text → Bool) : List TypeDeclaration → Bool
  | [] => true
  | decl :: decls => decl.isSimpleLayout named && declsSimple named decls

def Value.isSimpleLayout (named : Text → Bool) : Value → Bool
  | .null | .boolean _ | .bigint _ | .varchar _ => true
  | .double _ | .datum _ _ => false
  | .array values => decide (values.length ≤ 3) && valuesSimple named values
  | .map entries => decide (entries.length ≤ 2) && entriesSimple named entries
  | .typeDecl decl => decl.isSimpleLayout named
  | .typedValue type constructor => type.isSimpleLayout named && constructor.isSimpleLayout named
  | .namedValue type constructor => named type && constructor.isSimpleLayout named

def valuesSimple (named : Text → Bool) : List Value → Bool
  | [] => true
  | value :: values => value.isSimpleLayout named && valuesSimple named values

def entriesSimple (named : Text → Bool) : List (Text × Value) → Bool
  | [] => true
  | (_, value) :: entries => value.isSimpleLayout named && entriesSimple named entries

end

/-- `is_simple_layout` of a named type. A declaration can refer to named types only through its
constructor arguments, so a chain of different ones is not longer than the dictionary. -/
def namedSimple (dictionary : Dictionary) : Nat → Text → Bool
  | 0, _ => false
  | depth + 1, name =>
    match dictionary.lookup name with
    | some decl => decl.isSimpleLayout (namedSimple dictionary depth)
    | none => false

mutual

/-- `LDTypeDeclarationView::dump`: a simple declaration takes one line of an indented text. -/
def TypeDeclaration.dump (named : Text → Bool) (state : DumpFormatState) :
    TypeDeclaration → Text
  | .mk name params args =>
    let simple := (TypeDeclaration.mk name params args).isSimpleLayout named
    let state := if state.indentSize = 0 ∨ simple = false then state else .noIndent
    name ++ dumpItems state ['<'] ['>'] (dumpDecls named state.push params)
      ++ dumpItems state ['('] [')'] (dumpValues named state.push args)

def dumpDecls (named : Text → Bool) (state : DumpFormatState) : List TypeDeclaration → List Text
  | [] => []
  | decl :: decls => decl.dump named state :: dumpDecls named state decls

/-- `LDDValueView::dump`. A double and a value of a registered type are written as the text they
were read from (their own dump is not part of this model). -/
def Value.dump (named : Text → Bool) (state : DumpFormatState) : Value → Text
  | .null => ['n', 'u', 'l', 'l']
  | .boolean value => if value then ['t', 'r', 'u', 'e'] else ['f', 'a', 'l', 's', 'e']
  | .bigint value => dumpBigint value
  | .double literal => literal
  | .varchar text => dumpString text
  | .datum type constructor => constructor.dump named state ++ '@' :: type
  | .array values =>
    let simple := (Value.array values).isSimpleLayout named
    let state := if state.indentSize = 0 ∨ simple = false then state else .simple
    if values.isEmpty then ['[', ']']
    else dumpItems state ['['] [']'] (dumpValues named state.push values)
  | .map entries =>
    let simple := (Value.map entries).isSimpleLayout named
    let state := if state.indentSize = 0 ∨ simple = false then state else .simple
    if entries.isEmpty then ['{', '}']
    else dumpItems state ['{'] ['}'] (dumpEntries named state.push entries)
  | .typeDecl decl => decl.dump named state
  | .typedValue type constructor =>
    if constructor.isVarchar then constructor.dump named state ++ '@' :: type.dump named state
    else '@' :: type.dump named state ++ [' ', '=', ' '] ++ constructor.dump named state
  | .namedValue type constructor =>
    -- the reference is written with a `#` behind a string, and without one before another value
    if constructor.isVarchar then constructor.dump named state ++ '@' :: '#' :: type
    else '@' :: type ++ [' ', '=', ' '] ++ constructor.dump named state

def dumpValues (named : Text → Bool) (state : DumpFormatState) : List Value → List Text
  | [] => []
  | value :: values => value.dump named state :: dumpValues named state values

def dumpEntries (named : Text → Bool) (state : DumpFormatState) :
    List (Text × Value) → List Text
  | [] => []
  | (key, value) :: entries =>
    (dumpString key ++ [':', ' '] ++ value.dump named state) :: dumpEntries named state entries

end

def dumpNamedTypes (named : Text → Bool) (state : DumpFormatState) (dictionary : Dictionary) :
    List Text :=
  dictionary.map fun e => e.1 ++ [':', ' '] ++ e.2.dump named state

def dumpDictionary (named : Text → Bool) (state : DumpFormatState) (dictionary : Dictionary) :
    Text :=
  if dictionary.isEmpty then
    ['#', '{'] ++ state.nlStart ++ state.nlEnd ++ state.makeIndent ++ ['}']
  else dumpItems state ['#', '{'] ['}'] (dumpNamedTypes named state.push dictionary)

def Document.dump (state : DumpFormatState) (doc : Document) : Text :=
  let named := namedSimple doc.namedTypes (doc.namedTypes.length + 1)
  (match doc.typeDirectory with
    | some dictionary => dumpDictionary named state dictionary
    | none => [])
    ++ doc.value.dump named state

def isSpace (c : Char) : Bool :=
  c = ' ' || c = '\t' || c = '\n' || c = '\x0b' || c = '\x0c' || c = '\r'

def skip (text : Text) : Text := text.dropWhile isSpace

def token (word : Text) : Parser Char Unit := lit isSpace word

/-- `*(char_ - quote - "\\quote" | '\\' >> char_(quote))`: what stands before the closing quote,
and the text from it on. -/
def stringBody (quote : Char) : Text → Text × Text
  | [] => ([], [])
  | [c] => if c = quote then ([], [c]) else ([c], [])
  | c :: d :: text =>
    if c = quote then ([], c :: d :: text)
    else if c = '\\' ∧ d = quote then
      let (body, rest) := stringBody quote text
      (quote :: body, rest)
    else
      let (body, rest) := stringBody quote (d :: text)
      (c :: body, rest)

def quotedWith (quote : Char) : Parser Char Text := fun text =>
  match skip text with
  | c :: inner =>
    if c = quote then
      match stringBody quote inner with
      | (body, _ :: rest) => some (body, rest)
      | (_, []) => none
    else none
  | [] => none

def sdnString : Parser Char Text := fun text =>
  (quotedWith '\x27' text).or (quotedWith '\x22' text)

def isIdentStart (c : Char) : Bool := c.isAlpha || c = '_'

def isIdentPart (c : Char) : Bool := c.isAlphanum || c = '_'

/-- The identifier that stands at the start of a text without blanks before it. A word that only
starts with `null`, `true` or `false` is refused too. -/
def identifierAt (text : Text) : Option (Text × Text) :=
  if ['n', 'u', 'l', 'l'] <+: text ∨ ['t', 'r', 'u', 'e'] <+: text
      ∨ ['f', 'a', 'l', 's', 'e'] <+: text then none
  else match text with
    | c :: rest =>
      if isIdentStart c then some (c :: rest.takeWhile isIdentPart, rest.dropWhile isIdentPart)
      else none
    | [] => none

def identifier : Parser Char Text := fun text => identifierAt (skip text)

def isIdentifier (text : Text) : Bool :=
  match identifier text with
  | some (_, rest) => (skip rest).isEmpty
  | none => false

def dropSign : Text → Text
  | c :: text => if c = '+' ∨ c = '-' then text else c :: text
  | [] => []

def behindWord : List Char → Text → Option Text
  | [], text => some text
  | w :: word, c :: text => if c.toLower = w then behindWord word text else none
  | _ :: _, [] => none

def behindNan (text : Text) : Option Text := do
  let rest ← behindWord ['n', 'a', 'n'] text
  match rest with
  | '(' :: inner =>
    match inner.dropWhile (· ≠ ')') with
    | _ :: behind => some behind
    | [] => none
  | _ => some rest

def behindInf (text : Text) : Option Text := do
  let rest ← behindWord ['i', 'n', 'f'] text
  some ((behindWord ['i', 'n', 'i', 't', 'y'] rest).getD rest)

def behindExponent (text : Text) : Text :=
  match text with
  | c :: rest =>
    if c = 'e' ∨ c = 'E' then
      match dropSign rest with
      | d :: digits => if d.isDigit then digits.dropWhile Char.isDigit else text
      | [] => text
    else text
  | [] => []

/-- The text behind a real number that `strict_real_policies` accept: `nan`, `inf`, or digits with
a dot or an exponent. -/
def behindReal (text : Text) : Option Text :=
  let unsigned := dropSign text
  let behind := unsigned.dropWhile Char.isDigit
  let digits := !(unsigned.takeWhile Char.isDigit).isEmpty
  let special := if digits then none else (behindNan unsigned).or (behindInf unsigned)
  match special with
  | some rest => some rest
  | none =>
    match behind with
    | '.' :: fraction =>
      if digits || !(fraction.takeWhile Char.isDigit).isEmpty then
        some (behindExponent (fraction.dropWhile Char.isDigit))
      else none
    | c :: _ => if digits ∧ (c = 'e' ∨ c = 'E') then some (behindExponent behind) else none
    | [] => none

def strictDouble : Parser Char Text := fun text =>
  (behindReal (skip text)).map fun rest =>
    ((skip text).take ((skip text).length - rest.length), rest)

/-- `qi::long_long`: a number that does not fit fails. -/
def longLong : Parser Char Int64 := fun text =>
  let unsigned := dropSign (skip text)
  let digits := unsigned.takeWhile Char.isDigit
  let magnitude : Int := Nat.ofDigitChars 10 digits 0
  let number := if (skip text).head? = some '-' then -magnitude else magnitude
  if digits.isEmpty ∨ number < -2 ^ 63 ∨ 2 ^ 63 ≤ number then none
  else some (Int64.ofInt number, unsigned.dropWhile Char.isDigit)

/-! ### Rules

The recursive rules of `SDNParser`, each over the parsers of the values and declarations inside. -/

section Rules

variable (value : Parser Char Value) (declaration : Parser Char TypeDeclaration)

def bracketed {α : Type} (opening closing : Text) (item : Parser Char α) :
    Parser Char (List α) := fun text => do
  let (_, text) ← token opening text
  let (items, text) := opt (sepBy (token [',']) item) [] text
  let (_, text) ← token closing text
  return (items, text)

def enclosed {α : Type} (opening closing : Text) (item : Parser Char α) :
    Parser Char (List α) := fun text =>
  (do
    let (_, text) ← token opening text
    let (items, text) ← sepBy (token [',']) item text
    let (_, text) ← token closing text
    return (items, text)).or
  (do
    let (_, text) ← token opening text
    let (_, text) ← token closing text
    return ([], text))

def typeDeclaration : Parser Char TypeDeclaration := fun text => do
  let (name, text) ← identifier text
  let (params, text) := opt (bracketed ['<'] ['>'] declaration) [] text
  let (args, text) := opt (bracketed ['('] [')'] value) [] text
  return (.mk name params args, text)

def typeDeclOrReference : Parser Char (Text ⊕ TypeDeclaration) := fun text =>
  ((typeDeclaration value declaration text).map fun read => (.inr read.1, read.2)).or
    (((token ['#'] text).bind fun read => identifier read.2).map fun read => (.inl read.1, read.2))

def ofType (type : Text ⊕ TypeDeclaration) (constructor : Value) : Value :=
  match type with
  | .inl name => .namedValue name constructor
  | .inr decl => .typedValue decl constructor

def typedValue : Parser Char Value := fun text => do
  let (_, text) ← token ['@'] text
  let (type, text) ← typeDeclOrReference value declaration text
  let (_, text) ← token ['='] text
  let (constructor, text) ← value text
  return (ofType type constructor, text)

def typeSuffix : Parser Char (Text ⊕ TypeDeclaration) := fun text => do
  let (_, text) ← token ['@'] text
  typeDeclOrReference value declaration text

def sdnStringOrTypedValue : Parser Char Value := fun text => do
  let (body, text) ← sdnString text
  match typeSuffix value declaration text with
  | some (type, text) => return (ofType type (.varchar body), text)
  | none => return (.varchar body, text)

def mapEntry : Parser Char (Text × Value) := fun text => do
  let (key, text) ← sdnString text
  let (_, text) ← token [':'] text
  let (entry, text) ← value text
  return ((key, entry), text)

def boolValue : Parser Char Bool := fun text =>
  ((token ['t', 'r', 'u', 'e'] text).map fun read => (true, read.2)).or
    ((token ['f', 'a', 'l', 's', 'e'] text).map fun read => (false, read.2))

def sdnValue : Parser Char Value := fun text =>
  (sdnStringOrTypedValue value declaration text).or <|
  ((strictDouble text).map fun read => (.double read.1, read.2)).or <|
  ((longLong text).map fun read => (.bigint read.1, read.2)).or <|
  ((enclosed ['{'] ['}'] (mapEntry value) text).map fun read =>
    (.map (putAll read.1), read.2)).or <|
  ((token ['n', 'u', 'l', 'l'] text).map fun read => (.null, read.2)).or <|
  ((enclosed ['['] [']'] value text).map fun read => (.array read.1, read.2)).or <|
  ((typeDeclaration value declaration text).map fun read => (.typeDecl read.1, read.2)).or <|
  (typedValue value declaration text).or <|
  (boolValue text).map fun read => (.boolean read.1, read.2)

end Rules

def rules : Nat → Parser Char Value × Parser Char TypeDeclaration
  | 0 => (fun _ => none, fun _ => none)
  | depth + 1 =>
    (sdnValue (rules depth).1 (rules depth).2, typeDeclaration (rules depth).1 (rules depth).2)

/-- Every level of nesting takes a character, so the length of the text is depth enough. -/
def parseValue : Parser Char Value := fun text => (rules (text.length + 1)).1 text

def parseDeclaration : Parser Char TypeDeclaration := fun text => (rules (text.length + 1)).2 text

def typeDirectoryEntry : Parser Char (Text × TypeDeclaration) := fun text => do
  let (name, text) ← identifier text
  let (_, text) ← token [':'] text
  let (decl, text) ← parseDeclaration text
  return ((name, decl), text)

def typeDirectory : Parser Char Dictionary := enclosed ['#', '{'] ['}'] typeDirectoryEntry

/-! ### Building the document

The actions of the rules. They are run here on what the rules have read, entry by entry of the
dictionary and then on the value, which is the order in which the source runs them. -/

mutual

def TypeDeclaration.toCxxTypedecl : TypeDeclaration → Text
  | .mk name params _ => name ++ dumpItems .simple ['<'] ['>'] (cxxTypedecls params)

def cxxTypedecls : List TypeDeclaration → List Text
  | [] => []
  | decl :: decls => decl.toCxxTypedecl :: cxxTypedecls decls

end

section Building

-- the types of the data type registry, by their C++ names
variable (registered : Text → Bool)

def newTypedValue (type : TypeDeclaration) (constructor : Value) (unregistered : Value) : Value :=
  if registered type.toCxxTypedecl then .datum type.toCxxTypedecl constructor else unregistered

mutual

def TypeDeclaration.build (dictionary : Dictionary) : TypeDeclaration → Option TypeDeclaration
  | .mk name params args => do
    return .mk name (← buildDecls dictionary params) (← buildValues dictionary args)

def buildDecls (dictionary : Dictionary) : List TypeDeclaration → Option (List TypeDeclaration)
  | [] => some []
  | decl :: decls => do return (← decl.build dictionary) :: (← buildDecls dictionary decls)

/-- A reference to a type that is not in the dictionary reads an empty optional: no document. -/
def Value.build (dictionary : Dictionary) : Value → Option Value
  | .null => some .null
  | .boolean value => some (.boolean value)
  | .bigint value => some (.bigint value)
  | .double literal => some (.double literal)
  | .varchar text => some (.varchar text)
  | .datum type constructor => do return .datum type (← constructor.build dictionary)
  | .array values => do return .array (← buildValues dictionary values)
  | .map entries => do return .map (← buildEntries dictionary entries)
  | .typeDecl decl => do return .typeDecl (← decl.build dictionary)
  | .typedValue type constructor => do
    let type ← type.build dictionary
    let constructor ← constructor.build dictionary
    return newTypedValue registered type constructor (.typedValue type constructor)
  | .namedValue name constructor => do
    let constructor ← constructor.build dictionary
    let type ← dictionary.lookup name
    return newTypedValue registered type constructor (.namedValue name constructor)

def buildValues (dictionary : Dictionary) : List Value → Option (List Value)
  | [] => some []
  | value :: values => do return (← value.build dictionary) :: (← buildValues dictionary values)

def buildEntries (dictionary : Dictionary) : List (Text × Value) → Option (List (Text × Value))
  | [] => some []
  | (key, value) :: entries => do
    return (key, ← value.build dictionary) :: (← buildEntries dictionary entries)

end

/-- `add_type_directory_entry`, entry by entry: a declaration sees the types before it. -/
def buildDictionary : Dictionary → Dictionary → Option Dictionary
  | done, [] => some done
  | done, (name, decl) :: entries => do
    let decl ← decl.build registered done
    buildDictionary (put done name decl) entries

def parse (text : Text) : Option Document := do
  let (directory, text) := opt typeDirectory [] text
  let (value, text) ← parseValue text
  if (skip text).isEmpty then do
    let dictionary ← buildDictionary registered [] directory
    let value ← value.build registered dictionary
    return ⟨if directory.isEmpty then none else some dictionary, value⟩
  else none

def parseTypeDecl (text : Text) : Option Document := do
  let (decl, text) ← parseDeclaration text
  if (skip text).isEmpty then do
    let decl ← decl.build registered []
    return ⟨none, .typeDecl decl⟩
  else none

end Building

end Memoria.Sdn

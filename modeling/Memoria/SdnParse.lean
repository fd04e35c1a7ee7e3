import Memoria.LinkedTypeDecl
import Memoria.Sdn

namespace Memoria.Sdn

open Peg

/-! Parsing as the code does it: the actions of the rules run while the parse is still undecided, so
that a value that is given up later has had its type looked up already. An action runs where a value
or a declaration is completed; the texts at which the rules try one are collected here along the
rules, and the action of what is read at each of them is looked at. -/

inductive Visit where
  | value (text : Text)
  | declaration (text : Text)

section Visits

variable (value : Parser Char Value) (declaration : Parser Char TypeDeclaration)
  (valueVisits declarationVisits : Text → List Visit)

def bracketedVisits {α : Type} (opening : Text) (item : Parser Char α) (visits : Text → List Visit)
    (text : Text) : List Visit :=
  match token opening text with
  | none => []
  | some (_, text) => sepByVisits (token [',']) item visits text

def typeDeclarationVisits (text : Text) : List Visit :=
  .declaration text :: match identifier text with
    | none => []
    | some (_, text) =>
      bracketedVisits ['<'] declaration declarationVisits text ++
        bracketedVisits ['('] value valueVisits (opt (bracketed ['<'] ['>'] declaration) [] text).2

def typeSuffixVisits (text : Text) : List Visit :=
  match token ['@'] text with
  | none => []
  | some (_, text) => typeDeclarationVisits value declaration valueVisits declarationVisits text

def typedValueVisits (text : Text) : List Visit :=
  typeSuffixVisits value declaration valueVisits declarationVisits text ++
    match typeSuffix value declaration text with
    | none => []
    | some (_, text) =>
      match token ['='] text with
      | none => []
      | some (_, text) => valueVisits text

def sdnStringOrTypedValueVisits (text : Text) : List Visit :=
  match sdnString text with
  | none => []
  | some (_, text) => typeSuffixVisits value declaration valueVisits declarationVisits text

def mapEntryVisits (text : Text) : List Visit :=
  match sdnString text with
  | none => []
  | some (_, text) =>
    match token [':'] text with
    | none => []
    | some (_, text) => valueVisits text

def tried : List (Bool × List Visit) → List Visit
  | [] => []
  | (succeeds, visits) :: others => visits ++ if succeeds then [] else tried others

def sdnValueVisits (text : Text) : List Visit :=
  .value text :: tried
    [((sdnStringOrTypedValue value declaration text).isSome,
        sdnStringOrTypedValueVisits value declaration valueVisits declarationVisits text),
      ((strictDouble text).isSome, []),
      ((longLong text).isSome, []),
      ((enclosed ['{'] ['}'] (mapEntry value) text).isSome,
        bracketedVisits ['{'] (mapEntry value) (mapEntryVisits valueVisits) text),
      ((token ['n', 'u', 'l', 'l'] text).isSome, []),
      ((enclosed ['['] [']'] value text).isSome, bracketedVisits ['['] value valueVisits text),
      ((typeDeclaration value declaration text).isSome,
        typeDeclarationVisits value declaration valueVisits declarationVisits text),
      ((typedValue value declaration text).isSome,
        typedValueVisits value declaration valueVisits declarationVisits text)]

end Visits

def visits : Nat → (Text → List Visit) × (Text → List Visit)
  | 0 => (fun _ => [], fun _ => [])
  | depth + 1 =>
    (sdnValueVisits (rules depth).1 (rules depth).2 (visits depth).1 (visits depth).2,
      typeDeclarationVisits (rules depth).1 (rules depth).2 (visits depth).1 (visits depth).2)

def parseValueVisits (text : Text) : List Visit := (visits (text.length + 1)).1 text

def parseDeclarationVisits (text : Text) : List Visit := (visits (text.length + 1)).2 text

def typeDirectoryEntryVisits (text : Text) : List Visit :=
  match (identifier text).bind fun read => token [':'] read.2 with
  | none => []
  | some (_, text) => parseDeclarationVisits text

def parseVisits (text : Text) : List Visit :=
  bracketedVisits ['#', '{'] typeDirectoryEntry typeDirectoryEntryVisits text ++
    parseValueVisits (opt typeDirectory [] text).2

structure Arenas where
  params : Text → List LinkedArena
  args : Text → List LinkedArena

/-- The arena leaves its block when the vector of the parameters or the arguments is allocated:
`ensure_params_capacity` and `ensure_args_capacity` go on with a pointer into the old block. -/
def Arenas.leave (arenas : Arenas) (text : Text) : TypeDeclaration → Bool
  | .mk _ params args =>
    (!params.isEmpty && (arenas.params text).any fun arena => arena.Moves (arena.vectorBytes 1)) ||
      (!args.isEmpty && (arenas.args text).any fun arena => arena.Moves (arena.vectorBytes 1))

def Arenas.leaveAt (arenas : Arenas) : Visit → Bool
  | .value _ => false
  | .declaration text => (parseDeclaration text).any fun read => arenas.leave text read.1

/-- `LDDocument::parse` in an arena: the document that `parse` gives as long as no write goes to a
block that the arena has left. -/
def parseIn (registered : Text → Bool) (arenas : Arenas) (text : Text) : Option Document :=
  if (parseVisits text).any arenas.leaveAt then none else parse registered text

section Actions

-- the types of the data type registry, and the values they throw on when they construct from them
variable (registered : Text → Bool) (refuses : Text → Value → Bool) (arenas : Arenas)

/-- The registered type throws when it is to construct from the value. -/
def refused (dictionary : Dictionary) (type : TypeDeclaration) (constructor : Value) : Bool :=
  registered type.toCxxTypedecl &&
    (constructor.build registered dictionary).any (refuses type.toCxxTypedecl)

/-- The action of a completed value does not return as it should: the named type is missing, and an
empty optional is read, or the registered type throws. -/
def fails (dictionary : Dictionary) : Value → Bool
  | .namedValue name constructor =>
    match dictionary.lookup name with
    | none => true
    | some type => refused registered refuses dictionary type constructor
  | .typedValue type constructor => refused registered refuses dictionary type constructor
  | _ => false

def failsAt (dictionary : Dictionary) : Visit → Bool
  | .value text => (parseValue text).any fun read => fails registered refuses dictionary read.1
  | .declaration text => arenas.leaveAt (.declaration text)

/-- The positions that `assert_parse_ok` reads: 125 at most, from where the parse has ended. -/
def messageReads : Nat → Nat → Nat → List Nat
  | 0, _, _ => []
  | rounds + 1, start, stop =>
    start :: if start + 1 = stop then [] else messageReads rounds (start + 1) stop

/-- What a call comes to. An `SDNParseException` has the positions of the text that were read for
its message, and the document is as it is then; the last case is anything else. -/
inductive Outcome where
  | returns (doc : Document)
  | throwsParseException (reads : List Nat) (doc : Document)
  | breaks

def parseFailed (text rest : Text) (doc : Document) : Outcome :=
  .throwsParseException (messageReads 125 (text.length - rest.length) text.length) doc

/-- `set_sdn`. The alternatives skip blanks on the iterator itself, so that a value that is not
there leaves it behind them. -/
def setSdn (doc : Document) (text : Text) : Outcome :=
  if (parseValueVisits text).any (failsAt registered refuses arenas doc.namedTypes) then .breaks
  else match parseValue text with
    | none => parseFailed text (skip text) doc
    | some (value, rest) =>
      if (skip rest).isEmpty then
        match value.build registered doc.namedTypes with
        | some value => .returns { doc with value := value }
        | none => .breaks
      else parseFailed text (skip rest) doc

/-- A declaration from the whole text, with what is made of the document then. A sequence works on
a copy of the iterator, so that a declaration that is not there leaves it at the start. -/
def declarationOutcome (doc : Document) (text : Text) (finish : TypeDeclaration → Document) :
    Outcome :=
  if (parseDeclarationVisits text).any (failsAt registered refuses arenas doc.namedTypes) then .breaks
  else match parseDeclaration text with
    | none => parseFailed text text doc
    | some (decl, rest) =>
      if (skip rest).isEmpty then
        match decl.build registered doc.namedTypes with
        | some decl => .returns (finish decl)
        | none => .breaks
      else parseFailed text (skip rest) doc

def Document.new : Document := ⟨none, .null⟩

def parseTypeDeclOutcome (text : Text) : Outcome :=
  declarationOutcome registered refuses arenas Document.new text fun decl => ⟨none, .typeDecl decl⟩

def createNamedType (doc : Document) (name text : Text) : Outcome :=
  if isIdentifier name then
    let ensured : Document := { doc with typeDirectory := some doc.namedTypes }
    declarationOutcome registered refuses arenas ensured text fun decl =>
      { ensured with typeDirectory := some (put doc.namedTypes name decl) }
  else .throwsParseException [] doc

/-- The dictionary after the entries that can be read, each added as soon as it is: `none` where an
action fails. -/
def addEntries : Nat → Dictionary → Text → Option Dictionary
  | 0, dictionary, _ => some dictionary
  | rounds + 1, dictionary, text =>
    match (identifier text).bind fun read => token [':'] read.2 with
    | none => some dictionary
    | some (_, behind) =>
      if (parseDeclarationVisits behind).any (failsAt registered refuses arenas dictionary) then none
      else match typeDirectoryEntry text with
        | none => some dictionary
        | some ((name, decl), rest) =>
          match decl.build registered dictionary with
          | none => none
          | some decl =>
            match token [','] rest with
            | none => some (put dictionary name decl)
            | some (_, rest) => addEntries rounds (put dictionary name decl) rest

def addTypeDirectory (text : Text) : Option Dictionary :=
  match token ['#', '{'] text with
  | none => some []
  | some (_, text) => addEntries registered refuses arenas (text.length + 1) [] text

def parseOutcome (text : Text) : Outcome :=
  match addTypeDirectory registered refuses arenas text with
  | none => .breaks
  | some dictionary =>
    let directory := opt typeDirectory [] text
    if (parseValueVisits directory.2).any (failsAt registered refuses arenas dictionary) then .breaks
    else match parseValue directory.2 with
      | none => parseFailed text text Document.new
      | some (value, rest) =>
        if (skip rest).isEmpty then
          match value.build registered dictionary with
          | some value => .returns ⟨if directory.1.isEmpty then none else some dictionary, value⟩
          | none => .breaks
        else parseFailed text (skip rest) Document.new

inductive Call where
  | parse
  | parseTypeDecl
  | setSdn
  | createNamedType (name : Text)

def Call.document (doc : Document) : Call → Document
  | .parse => Document.new
  | .parseTypeDecl => Document.new
  | .setSdn => doc
  | .createNamedType _ => doc

def Call.run (doc : Document) (text : Text) : Call → Outcome
  | .parse => parseOutcome registered refuses arenas text
  | .parseTypeDecl => parseTypeDeclOutcome registered refuses arenas text
  | .setSdn => Sdn.setSdn registered refuses arenas doc text
  | .createNamedType name => Sdn.createNamedType registered refuses arenas doc name text

/-- `get_named_type_declaration`, `none` where it reads through a null pointer: the array of a map
without entries. -/
def Document.getNamedTypeDeclaration (doc : Document) (name : Text) :
    Option (Option TypeDeclaration) :=
  match doc.typeDirectory with
  | none => some none
  | some dictionary => if dictionary.isEmpty then none else some (dictionary.lookup name)

/-- The call returns, or it throws an `SDNParseException`: then its message has been made of the text
alone, and the value and the named types can be read as they were before. -/
def Outcome.Clean (before : Document) (length : Nat) : Outcome → Prop
  | .returns _ => True
  | .throwsParseException reads after => (∀ position ∈ reads, position < length) ∧
      after.value = before.value ∧
      ∀ name, after.getNamedTypeDeclaration name = some (before.namedTypes.lookup name)
  | .breaks => False

def IsWhole {α : Type} (parser : Parser Char α) (text : Text) : Prop :=
  ∃ item rest, parser text = some (item, rest) ∧ skip rest = []

/-- There is a text to show in a message, which for a value does not count its leading blanks; no
action of the parse looks up a missing type, has a registered type throw or writes to a block that
the arena has left; and a call that fails does not leave a directory without entries behind. -/
def Call.Sound (doc : Document) (text : Text) : Call → Prop
  | .parse => text ≠ [] ∧
      ∃ dictionary, addTypeDirectory registered refuses arenas text = some dictionary ∧
        ∀ s ∈ parseValueVisits (opt typeDirectory [] text).2,
          failsAt registered refuses arenas dictionary s = false
  | .parseTypeDecl => text ≠ [] ∧
      ∀ s ∈ parseDeclarationVisits text, failsAt registered refuses arenas [] s = false
  | .setSdn => skip text ≠ [] ∧
      (∀ s ∈ parseValueVisits text, failsAt registered refuses arenas doc.namedTypes s = false) ∧
      (doc.typeDirectory = some [] → IsWhole parseValue text)
  | .createNamedType name =>
      if isIdentifier name then text ≠ [] ∧
        (∀ s ∈ parseDeclarationVisits text,
          failsAt registered refuses arenas doc.namedTypes s = false) ∧
        (doc.namedTypes = [] → IsWhole parseDeclaration text)
      else doc.typeDirectory ≠ some []

end Actions

end Memoria.Sdn

import Mathlib.Logic.Function.Basic
import Memoria.Lib.Unroll
import Memoria.LinkedVector
import Memoria.Sdn

/-!
# Copies of LinkedData documents

A document lives in an arena that only grows: a value is an object in it, with a tag in front, and
refers to others by their addresses. `deep_copy_to` copies the objects seen from one address into
the arena of another document. Which objects are copied once only, and what becomes of the types of
typed values, is kept in an `LDArenaAddressMapping`.

The layout of the arena in bytes is left out: an address is a number, 0 for the null pointer, an
object takes one address, and it is placed when its parts are. The hash tables of a document (see
`LinkedTable`) are lists here, in the order that `for_each` visits, and so are arrays, except for the
one that `add_document` adds to (see `LinkedVector`). The text of a declaration is a parameter: the
copy only compares such texts.
-/

namespace Memoria.LinkedDocument

open Lib
open Sdn (Text)

inductive Tag where
  | scalar (hash : ℕ)
  | varchar
  | array
  | map
  | typeDecl
  | typedValue
deriving DecidableEq

inductive Cell where
  | scalar (bits : ℕ)
  | varchar (text : Text)
  | array (elements : List ℕ)
  | map (entries : List (ℕ × ℕ))
  | typeDecl (name : ℕ) (params args : List ℕ)
  | typedValue (type value : ℕ)
deriving DecidableEq

structure Object where
  tag : Option Tag
  cell : Cell
deriving DecidableEq

abbrev Arena := List Object

namespace Arena

def at? (arena : Arena) (ptr : ℕ) : Option Object :=
  if ptr = 0 then none else arena[ptr - 1]?

def text (arena : Arena) (ptr : ℕ) : Option Text :=
  match arena.at? ptr with
  | some ⟨_, .varchar text⟩ => some text
  | _ => none

end Arena

inductive View where
  | value (ptr : ℕ)
  | decl (ptr : ℕ)
deriving DecidableEq

inductive Kind where
  | null
  | scalar (hash bits : ℕ)
  | varchar (text : Text)
  | array
  | map
  | typeDecl (name : Text) (params : ℕ)
  | typedValue
deriving DecidableEq

namespace Arena

def lookDecl (arena : Arena) (name : ℕ) (params args : List ℕ) : Option (Kind × List View) :=
  (arena.text name).map fun name =>
    (.typeDecl name params.length, params.map .decl ++ args.map .value)

/-- What a value shows, with the views of its parts. The parts of a map are its keys and values. -/
def lookValue (arena : Arena) : Object → Option (Kind × List View)
  | ⟨some (.scalar hash), .scalar bits⟩ => some (.scalar hash bits, [])
  | ⟨some .varchar, .varchar text⟩ => some (.varchar text, [])
  | ⟨some .array, .array elements⟩ => some (.array, elements.map .value)
  | ⟨some .map, .map entries⟩ =>
      some (.map, entries.flatMap fun entry => [.value entry.1, .value entry.2])
  | ⟨some .typeDecl, .typeDecl name params args⟩ => arena.lookDecl name params args
  | ⟨some .typedValue, .typedValue type value⟩ => some (.typedValue, [.decl type, .value value])
  | _ => none

def look (arena : Arena) : View → Option (Kind × List View)
  | .value ptr => if ptr = 0 then some (.null, []) else (arena.at? ptr).bind arena.lookValue
  | .decl ptr => (arena.at? ptr).bind fun object =>
      match object.cell with
      | .typeDecl name params args => arena.lookDecl name params args
      | _ => none

/-- What a view shows if the types that are `passed` over are left out of typed values. -/
def lookPast (arena : Arena) (passed : ℕ → Bool) : View → Option (Kind × List View)
  | .decl ptr => arena.look (.decl ptr)
  | .value ptr =>
      match arena.at? ptr with
      | some ⟨some .typedValue, .typedValue type value⟩ =>
          if passed type then some (.typedValue, [.value value]) else arena.look (.value ptr)
      | _ => arena.look (.value ptr)

end Arena

structure Document where
  arena : Arena
  value : ℕ
  typeDirectory : List (ℕ × ℕ)
  strings : List ℕ
deriving DecidableEq

namespace Document

def empty : Document := ⟨[], 0, [], []⟩

def allocate (doc : Document) (object : Object) : ℕ × Document :=
  (doc.arena.length + 1, { doc with arena := doc.arena ++ [object] })

def isShared (doc : Document) (text : Text) : Option ℕ :=
  doc.strings.find? fun ptr => doc.arena.text ptr = some text

def newVarchar (doc : Document) (text : Text) : ℕ × Document :=
  match doc.isShared text with
  | some ptr => (ptr, doc)
  | none => doc.allocate ⟨some .varchar, .varchar text⟩

def namedType (doc : Document) (name : Text) : Option ℕ :=
  (doc.typeDirectory.find? fun entry => doc.arena.text entry.1 = some name).map (·.2)

def putType (doc : Document) (key type : ℕ) : Document :=
  if doc.typeDirectory.any fun entry => doc.arena.text entry.1 = doc.arena.text key then
    { doc with
      typeDirectory := doc.typeDirectory.map fun entry =>
        if doc.arena.text entry.1 = doc.arena.text key then (entry.1, type) else entry }
  else { doc with typeDirectory := doc.typeDirectory ++ [(key, type)] }

def setNamedTypeDeclaration (doc : Document) (name : Text) (type : ℕ) : Document :=
  let key := doc.newVarchar name
  key.2.putType key.1 type

end Document

inductive CopyingType where
  | compaction
  | exporting
  | importing
deriving DecidableEq

structure Mapping where
  ptrs : ℕ → Option ℕ
  copyingType : CopyingType
  typeNames : ℕ → Option (Text × Bool)
  typesByData : Text → Option ℕ

namespace Mapping

def namesOf (doc : Document) : ℕ → Option (Text × Bool) :=
  doc.typeDirectory.foldl (fun names entry =>
    Function.update names entry.2 ((doc.arena.text entry.1).map fun name => (name, false)))
    fun _ => none

def typesOf (standardString : Document → ℕ → Text) (doc : Document) : Text → Option ℕ :=
  doc.typeDirectory.foldl (fun types entry =>
    Function.update types (standardString doc entry.2) (some entry.2)) fun _ => none

def forCompaction : Mapping := ⟨fun _ => none, .compaction, fun _ => none, fun _ => none⟩

def forExport (src : Document) : Mapping :=
  ⟨fun _ => none, .exporting, namesOf src, fun _ => none⟩

def forImport (standardString : Document → ℕ → Text) (src dst : Document) : Mapping :=
  ⟨fun _ => none, .importing, namesOf src, typesOf standardString dst⟩

end Mapping

structure Copying where
  tgt : Document
  mapping : Mapping

namespace Copying

def allocate (copying : Copying) (object : Object) : ℕ × Copying :=
  let out := copying.tgt.allocate object
  (out.1, { copying with tgt := out.2 })

def newVarchar (copying : Copying) (text : Text) : ℕ × Copying :=
  let out := copying.tgt.newVarchar text
  (out.1, { copying with tgt := out.2 })

def mapPtrs (copying : Copying) (source target : ℕ) : Copying :=
  { copying with
    mapping := { copying.mapping with
      ptrs := Function.update copying.mapping.ptrs source (some target) } }

def setNamedTypeDeclaration (copying : Copying) (name : Text) (type : ℕ) : Copying :=
  { copying with tgt := copying.tgt.setNamedTypeDeclaration name type }

def finishSrcNamedType (copying : Copying) (type : ℕ) : Copying :=
  { copying with
    mapping := { copying.mapping with
      typeNames := Function.update copying.mapping.typeNames type
        ((copying.mapping.typeNames type).map fun name => (name.1, true)) } }

def finishDstNamedType (copying : Copying) (data : Text) (type : ℕ) : Copying :=
  { copying with
    mapping := { copying.mapping with
      typesByData := Function.update copying.mapping.typesByData data (some type) } }

end Copying

def copyAll {α β : Type} (copy : α → Copying → Option (β × Copying)) :
    List α → Copying → Option (List β × Copying)
  | [], copying => some ([], copying)
  | a :: rest, copying => do
      let first ← copy a copying
      let others ← copyAll copy rest first.2
      return (first.1 :: others.1, others.2)

def deepCopy (copy : ℕ → Copying → Option (ℕ × Copying)) (ptr : ℕ) (copying : Copying) :
    Option (ℕ × Copying) :=
  match copying.mapping.ptrs ptr with
  | some target => some (target, copying)
  | none => (copy ptr copying).map fun out => (out.1, out.2.mapPtrs ptr out.1)

def deepCopyEntry (key value : ℕ → Copying → Option (ℕ × Copying)) (entry : ℕ × ℕ)
    (copying : Copying) : Option ((ℕ × ℕ) × Copying) := do
  let key ← deepCopy key entry.1 copying
  let value ← deepCopy value entry.2 key.2
  return ((key.1, value.1), value.2)

section Copy

variable (standardString : Document → ℕ → Text) (src : Document)

/-- The part of `LDDTypedValueView::deep_copy_to` that finds the type of the copy, for a type that
has not been mapped yet; `copy` is `deep_copy_to` of the declaration. In an export a type that has
no name stays the null pointer. -/
def resolveType (copy : Copying → Option (ℕ × Copying)) (type : ℕ) (copying : Copying) :
    Option (ℕ × Copying) :=
  match copying.mapping.copyingType with
  | .compaction => copy copying
  | .exporting =>
      match copying.mapping.typeNames type with
      | some (name, false) => (copy copying).map fun out =>
          (out.1, (out.2.finishSrcNamedType type).setNamedTypeDeclaration name out.1)
      | _ => some (0, copying)
  | .importing =>
      let data := standardString src type
      match copying.mapping.typesByData data with
      | some target => some (target, copying)
      | none => (copy copying).map fun out =>
          match out.2.mapping.typeNames type with
          | some (name, _) =>
              (out.1, (out.2.setNamedTypeDeclaration name out.1).finishDstNamedType data out.1)
          | none => out

/-- `LDTypeDeclarationView::deep_copy_to`, which leaves the tag of the copy unset; `copyDecl` and
`copyValue` are `deep_copy_to` of the parameters and of the arguments. -/
def copyDeclWith (copyDecl copyValue : ℕ → Copying → Option (ℕ × Copying)) (ptr : ℕ)
    (copying : Copying) : Option (ℕ × Copying) :=
  match src.arena.at? ptr with
  | some ⟨_, .typeDecl name params args⟩ => do
      let text ← src.arena.text name
      let named := copying.newVarchar text
      let params ← copyAll copyDecl params named.2
      let args ← copyAll copyValue args params.2
      return args.2.allocate ⟨none, .typeDecl named.1 params.1 args.1⟩
  | _ => none

mutual

def copyDecl : ℕ → ℕ → Copying → Option (ℕ × Copying)
  | 0, _, _ => none
  | depth + 1, ptr, copying => copyDeclWith src (copyDecl depth) (copyValue depth) ptr copying

def copyValue : ℕ → ℕ → Copying → Option (ℕ × Copying)
  | 0, _, _ => none
  | depth + 1, ptr, copying =>
      if ptr = 0 then some (0, copying)
      else
        match src.arena.at? ptr with
        | some ⟨some (.scalar hash), .scalar bits⟩ =>
            some (copying.allocate ⟨some (.scalar hash), .scalar bits⟩)
        | some ⟨some .varchar, .varchar text⟩ => some (copying.newVarchar text)
        | some ⟨some .array, .array elements⟩ => do
            let elements ← copyAll (deepCopy (copyValue depth)) elements copying
            return elements.2.allocate ⟨some .array, .array elements.1⟩
        | some ⟨some .map, .map entries⟩ => do
            let entries ← copyAll (deepCopyEntry (copyValue depth) (copyValue depth)) entries copying
            return entries.2.allocate ⟨some .map, .map entries.1⟩
        | some ⟨some .typeDecl, .typeDecl _ _ _⟩ =>
            copyDeclWith src (copyDecl depth) (copyValue depth) ptr copying
        | some ⟨some .typedValue, .typedValue type value⟩ => do
            let type ← deepCopy
              (fun type => resolveType standardString src (copyDecl depth type) type) type copying
            let value ← copyValue depth value type.2
            return value.2.allocate ⟨some .typedValue, .typedValue type.1 value.1⟩
        | _ => none

end

/-- `StringsDeepCopyHelperBase::do_deep_copy`, and that of the keys of the type directory. -/
def copyString (ptr : ℕ) (copying : Copying) : Option (ℕ × Copying) :=
  (src.arena.text ptr).map fun text => copying.allocate ⟨some .varchar, .varchar text⟩

def compactify (depth : ℕ) : Option Document := do
  let strings ← copyAll (deepCopy (copyString src)) src.strings ⟨Document.empty, .forCompaction⟩
  let copying := { strings.2 with tgt := { strings.2.tgt with strings := strings.1 } }
  let types ← copyAll
    (deepCopyEntry (copyString src) (copyDecl standardString src depth)) src.typeDirectory copying
  let copying := { types.2 with tgt := { types.2.tgt with typeDirectory := types.1 } }
  let value ← copyValue standardString src depth src.value copying
  return { value.2.tgt with value := value.1 }

end Copy

variable (standardString : Document → ℕ → Text)

def clone (src : Document) (depth : ℕ) (ptr : ℕ) (compact : Bool) : Option Document := do
  let value ← copyValue standardString src depth ptr ⟨Document.empty, .forExport src⟩
  let tgt := { value.2.tgt with value := value.1 }
  if compact then do
    let _ ← compactify standardString tgt depth
    return tgt
  else return tgt

def importValue (src dst : Document) (depth : ℕ) : Option (ℕ × Document) :=
  (copyValue standardString src depth src.value ⟨dst, .forImport standardString src dst⟩).map
    fun out => (out.1, out.2.tgt)

def setDocument (src dst : Document) (depth : ℕ) : Option Document :=
  (importValue standardString src dst depth).map fun out => { out.2 with value := out.1 }

/-- `LDDArrayView::add_document`; `array` has the elements of the array, and `memory` is what the
arena has in the space that `push_back` may allocate. -/
def addDocument (src dst : Document) (depth : ℕ) (array : LinkedVector ℕ) (memory : ℕ → ℕ) :
    Option (ℕ × Document × LinkedVector ℕ) :=
  (importValue standardString src dst depth).map fun out =>
    (out.1, out.2, LinkedDynVector.pushBack array out.1 memory)

def Cell.ptrs : Cell → List ℕ
  | .scalar _ | .varchar _ => []
  | .array elements => elements
  | .map entries => entries.flatMap fun entry => [entry.1, entry.2]
  | .typeDecl name params args => name :: (params ++ args)
  | .typedValue type value => [type, value]

def Arena.IsString (arena : Arena) (ptr : ℕ) : Prop :=
  ∃ text, arena.at? ptr = some ⟨some .varchar, .varchar text⟩

def Arena.Closed (arena : Arena) : Prop :=
  ∀ object ∈ arena, ∀ ptr ∈ object.cell.ptrs, ptr ≤ arena.length

structure Document.Valid (doc : Document) : Prop where
  arena : doc.arena.Closed
  strings : ∀ ptr ∈ doc.strings, doc.arena.IsString ptr
  types : ∀ entry ∈ doc.typeDirectory,
    doc.arena.IsString entry.1 ∧ entry.2 ≤ doc.arena.length

structure Document.Finite (doc : Document) (depth : ℕ) : Prop where
  value : ∃ tree, unroll doc.arena.look depth (.value doc.value) = some tree
  types : ∀ entry ∈ doc.typeDirectory, ∃ tree, unroll doc.arena.look depth (.decl entry.2) = some tree

structure SameDocument (src tgt : Document) : Prop where
  value : Matches src.arena.look tgt.arena.look (.value src.value) (.value tgt.value)
  types : List.Forall₂ (fun entry entry' => tgt.arena.text entry'.1 = src.arena.text entry.1 ∧
    Matches src.arena.look tgt.arena.look (.decl entry.2) (.decl entry'.2))
    src.typeDirectory tgt.typeDirectory

structure Keeps (dst dst' : Document) : Prop where
  views : ∀ view tree, StandsFor dst.arena.look view tree → StandsFor dst'.arena.look view tree
  types : ∀ name type tree, dst.namedType name = some type →
    StandsFor dst.arena.look (.decl type) tree →
    ∃ type', dst'.namedType name = some type' ∧ StandsFor dst'.arena.look (.decl type') tree

/-- The view is not of a declaration that stands as a value, and the type of a typed value `fits`. -/
def Fits (arena : Arena) (fits : ℕ → Prop) : View → Prop
  | .decl _ => True
  | .value ptr =>
      match arena.at? ptr with
      | some ⟨some .typeDecl, _⟩ => False
      | some ⟨some .typedValue, .typedValue type _⟩ => fits type
      | _ => True

def CopyOk (arena : Arena) (fits : ℕ → Prop) (view : View) : Prop :=
  Everywhere arena.look (Fits arena fits) view

def CompactOk (src : Document) : Prop :=
  CopyOk src.arena (fun _ => True) (.value src.value) ∧
    ∀ entry ∈ src.typeDirectory, CopyOk src.arena (fun _ => True) (.decl entry.2)

def Document.IsNamed (doc : Document) (type : ℕ) : Prop :=
  ∃ entry ∈ doc.typeDirectory, entry.2 = type

def ExportOk (src : Document) (ptr : ℕ) : Prop :=
  CopyOk src.arena src.IsNamed (.value ptr)

def typeFor (src dst : Document) (type : ℕ) : Option ℕ :=
  Mapping.typesOf standardString dst (standardString src type)

def importLook (src dst : Document) : View → Option (Kind × List View) :=
  src.arena.lookPast fun type => (typeFor standardString src dst type).isSome

def Meets (src dst : Document) (view : View) : Prop :=
  Relation.ReflTransGen (Hangs (importLook standardString src dst)) (.value src.value) view

def MeetsType (src dst : Document) (type : ℕ) : Prop :=
  ∃ ptr value, Meets standardString src dst (.value ptr) ∧
    src.arena.at? ptr = some ⟨some .typedValue, .typedValue type value⟩

structure SameText (src dst : Document) (type : ℕ) : Prop where
  target : ∀ other, typeFor standardString src dst type = some other →
    ∀ tree, StandsFor src.arena.look (.decl type) tree → StandsFor dst.arena.look (.decl other) tree
  source : typeFor standardString src dst type = none →
    ∀ other, MeetsType standardString src dst other → src.IsNamed other →
    standardString src other = standardString src type →
    ∀ tree, StandsFor src.arena.look (.decl type) tree → StandsFor src.arena.look (.decl other) tree

structure Importable (src dst : Document) (type : ℕ) : Prop
    extends SameText standardString src dst type where
  name : typeFor standardString src dst type = none →
    ∀ name imported, Mapping.namesOf src type = some (name, imported) →
    ∀ other, dst.namedType name = some other →
    ∀ tree, StandsFor dst.arena.look (.decl other) tree → StandsFor src.arena.look (.decl type) tree

def ImportOk (src dst : Document) : Prop :=
  Everywhere (importLook standardString src dst)
    (Fits src.arena (Importable standardString src dst)) (.value src.value)

/-- What an import does with a type does not depend on when it meets it: no other declaration has the
text of a named type that is copied, no two types have one name, and a type that is not copied is no
value as well. -/
structure Apart (src dst : Document) : Prop where
  texts : ∀ type other, MeetsType standardString src dst type →
    MeetsType standardString src dst other → src.IsNamed other →
    typeFor standardString src dst other = none →
    standardString src type = standardString src other → type = other
  names : ∀ entry ∈ src.typeDirectory, ∀ other ∈ src.typeDirectory,
    src.arena.text entry.1 = src.arena.text other.1 → entry = other
  values : ∀ type, MeetsType standardString src dst type →
    (typeFor standardString src dst type).isSome → ¬ Meets standardString src dst (.value type)

end Memoria.LinkedDocument

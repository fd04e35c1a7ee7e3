import Memoria.Proof.SdnSpelled
import Memoria.SdnParse

namespace Memoria.Sdn

open Peg

/-! Dump and parse of a document as inverses. -/

def Document.atoms (doc : Document) : List Atom :=
  (doc.namedTypes.flatMap fun e => .name e.1 :: e.2.atoms) ++ doc.value.atoms

section Documents

variable (registered : Text → Bool)

/-- Documents are built from identifiers, maps with different keys, types of the dictionary and
types that are not registered. -/
def Atom.Built (dictionary : Dictionary) : Atom → Prop
  | .text _ => True
  | .name s => isIdentifier s = true
  | .standing _ => True
  | .keys ks => ks.Nodup
  | .type cxxTypedecl => registered cxxTypedecl = false
  | .reference s _ => ∃ decl, dictionary.lookup s = some decl ∧
      registered decl.toCxxTypedecl = false
  | .registered => False

structure Document.WellFormed (doc : Document) : Prop where
  built : ∀ a ∈ doc.atoms, a.Built registered doc.namedTypes
  names : (doc.namedTypes.map (·.1)).Nodup

end Documents

def Atom.Recoverable : Atom → Prop
  | .text s => ¬EndsInBackslash s
  | .name s => Trimmed s
  | .standing s => startsReal s = false
  | .reference _ string => string = true
  | _ => True

/-- The declarations of the dictionary refer to named types that stand before them only. -/
def Dictionary.InOrder : List Text → Dictionary → Prop
  | _, [] => True
  | seen, (name, decl) :: rest =>
    (∀ s string, .reference s string ∈ decl.atoms → s ∈ seen) ∧
      Dictionary.InOrder (seen ++ [name]) rest

def rereadDictionary (dictionary : Dictionary) : Dictionary :=
  dictionary.map fun e => (e.1, e.2.reread)

theorem parseValue_hash (text : Text) : parseValue ('#' :: text) = none := by
  rw [parseValue_eq, sdnValue, sdnStringOrTypedValue_eq_none (by decide) _ (by decide) (by decide),
    strictDouble_eq_none (by decide) (by decide),
    longLong_eq_none (by decide) (by decide) (by decide) (by decide),
    enclosed_eq_none (by decide) _ (by decide), token_ne (by decide) (by decide),
    enclosed_eq_none (by decide) _ (by decide),
    typeDeclaration_eq_none (by decide) _ (by decide),
    typedValue_eq_none (by decide) _ (by decide), boolValue, token_ne (by decide) (by decide),
    token_ne (by decide) (by decide)]
  rfl

/-- A text that starts with a value does not start with a directory. -/
theorem typeDirectory_eq_none {text : Text} {read : Value × Text}
    (h : parseValue text = some read) : typeDirectory text = none := by
  have htoken : token ['#', '{'] text = none := by
    cases hrun : token ['#', '{'] text with
    | none => rfl
    | some read' =>
      simp only [token, lit] at hrun
      split_ifs at hrun with hstart
      obtain ⟨tail, htail⟩ := hstart
      have hblank : Blank (text.takeWhile isSpace) := fun c hc => List.mem_takeWhile_imp hc
      have hsplit : text = text.takeWhile isSpace ++ '#' :: '{' :: tail := by
        rw [show '#' :: '{' :: tail = text.dropWhile isSpace from htail,
          List.takeWhile_append_dropWhile]
      rw [hsplit, parseValue_blank hblank, parseValue_hash] at h
      cases h
  simp only [typeDirectory, enclosed, htoken]
  rfl

theorem readsBack_directoryEntry {name text : Text} {decl : TypeDeclaration} (hname : Word name)
    (h : ReadsBack parseDeclaration text decl) :
    ReadsBack typeDirectoryEntry (name ++ [':', ' '] ++ text) (name, decl) := by
  intro blanks rest hblanks hrest
  have hspace : Blank [' '] := by simp [Blank, isSpace]
  have hcolon := token_append (show isSpace ':' = false by decide) [] (' ' :: (text ++ rest))
  have htext := h [' '] rest hspace hrest
  have hidentifier : identifier (name ++ ':' :: ' ' :: (text ++ rest))
      = some (name, ':' :: ' ' :: (text ++ rest)) :=
    hname.identifier_append (fun c hc => by cases Option.mem_some.mp hc; decide)
  simp only [List.cons_append, List.nil_append, List.append_assoc] at hcolon htext ⊢
  rw [typeDirectoryEntry, identifier_blank hblanks, hidentifier]
  simp only [Option.bind_eq_bind, Option.bind_some, hcolon, htext]
  rfl

theorem readsBack_namedTypes (named : Text → Bool) {state : DumpFormatState}
    (hstate : state.Blank) {dictionary : Dictionary}
    (h : ∀ e ∈ dictionary, Word e.1 ∧ ∀ a ∈ e.2.atoms, a.Readable) :
    List.Forall₂ (ReadsBack typeDirectoryEntry) (dumpNamedTypes named state dictionary)
      (rereadDictionary dictionary) := by
  induction dictionary with
  | nil => exact .nil
  | cons e dictionary ih =>
    obtain ⟨hname, hatoms⟩ := h e List.mem_cons_self
    refine .cons (readsBack_directoryEntry hname ?_)
      (ih fun e he => h e (List.mem_cons_of_mem _ he))
    intro blanks rest hblanks hrest
    rw [parseDeclaration_eq]
    exact e.2.readsBack named hstate hatoms blanks rest hblanks hrest

theorem typeDirectory_dumpDictionary (named : Text → Bool) {state : DumpFormatState}
    (hstate : state.Blank) {dictionary : Dictionary}
    (h : ∀ e ∈ dictionary, Word e.1 ∧ ∀ a ∈ e.2.atoms, a.Readable) (rest : Text) :
    typeDirectory (dumpDictionary named state dictionary ++ rest)
      = some (rereadDictionary dictionary, rest) := by
  unfold dumpDictionary
  cases dictionary with
  | nil =>
    have hblank : Blank (state.nlStart ++ (state.nlEnd ++ state.makeIndent)) :=
      hstate.nlStart.append (hstate.nlEnd.append hstate.makeIndent)
    have hopen := fun text => token_append (show isSpace '#' = false by decide) ['{'] text
    have hclose : token ['}'] ((state.nlStart ++ (state.nlEnd ++ state.makeIndent)) ++ '}' :: rest)
        = some ((), rest) := by
      rw [token_blank hblank]
      exact token_append (by decide) [] rest
    have hentry : typeDirectoryEntry
        ((state.nlStart ++ (state.nlEnd ++ state.makeIndent)) ++ '}' :: rest) = none := by
      have hidentifier : identifier ('}' :: rest) = none := by
        simp [identifier, identifierAt, skip_cons (show isSpace '}' = false by decide),
          isIdentStart]
      simp only [typeDirectoryEntry, identifier_blank hblank, hidentifier]
      rfl
    simp only [List.isEmpty_nil, if_true, List.append_assoc, List.cons_append, List.nil_append]
      at hopen hclose hentry ⊢
    simp only [typeDirectory, enclosed, hopen, sepBy, hentry, hclose, Option.bind_eq_bind,
      Option.bind_some, Option.bind_none]
    rfl
  | cons e dictionary =>
    have hread := enclosed_dumpItems hstate '#' ['{'] '}' (by decide) (by decide) (by decide)
      (readsBack_namedTypes named hstate.push h) (by simp [dumpNamedTypes]) Blank.nil rest
    exact hread

theorem Document.read {doc : Document} {state : DumpFormatState} (hstate : state.Blank)
    (h : ∀ a ∈ doc.atoms, a.Readable) :
    ∃ text, opt Sdn.typeDirectory [] (doc.dump state) = (rereadDictionary doc.namedTypes, text) ∧
      parseValue text = some (doc.value.reread, []) := by
  obtain ⟨directory, value⟩ := doc
  simp only [Document.atoms, List.forall_mem_append] at h
  obtain ⟨hdictionary, hvalue⟩ := h
  have hentries : ∀ e ∈ directory.getD [], Word e.1 ∧ ∀ a ∈ e.2.atoms, a.Readable := by
    intro e he
    have hmem : ∀ a ∈ Atom.name e.1 :: e.2.atoms, a.Readable :=
      fun a ha => hdictionary a (List.mem_flatMap.mpr ⟨e, he, ha⟩)
    exact List.forall_mem_cons.mp hmem
  have hread := fun named => value.readsBack named hstate hvalue [] [] Blank.nil Follow.nil
  simp only [List.nil_append, List.append_nil] at hread
  refine ⟨_, ?_, hread (namedSimple (directory.getD []) ((directory.getD []).length + 1))⟩
  cases directory with
  | none =>
    simp only [Document.dump, Document.namedTypes, List.nil_append, opt,
      typeDirectory_eq_none (hread _)]
    rfl
  | some dictionary =>
    have hdictionary : ∀ e ∈ dictionary, Word e.1 ∧ ∀ a ∈ e.2.atoms, a.Readable := hentries
    simp only [Document.dump, Document.namedTypes, opt,
      typeDirectory_dumpDictionary _ hstate hdictionary]
    rfl

section Building

variable {registered : Text → Bool}

def Atom.Marked : Atom → Prop
  | .reference _ string => string = true
  | _ => True

def Atom.Resolved (registered : Text → Bool) (dictionary : Dictionary) : Atom → Prop
  | .type cxxTypedecl => registered cxxTypedecl = false
  | .reference s _ => ∃ decl, dictionary.lookup s = some decl ∧
      registered decl.toCxxTypedecl = false
  | _ => True

mutual

theorem TypeDeclaration.reread_eq (decl : TypeDeclaration) (h : ∀ a ∈ decl.atoms, a.Marked) :
    decl.reread = decl := by
  match decl with
  | .mk name params args =>
    simp only [TypeDeclaration.atoms, List.forall_mem_cons, List.forall_mem_append] at h
    rw [TypeDeclaration.reread, rereadDecls_eq params h.2.1, rereadValues_eq args h.2.2]

theorem rereadDecls_eq (decls : List TypeDeclaration) (h : ∀ a ∈ declsAtoms decls, a.Marked) :
    rereadDecls decls = decls := by
  match decls with
  | [] => rfl
  | decl :: decls =>
    simp only [declsAtoms, List.forall_mem_append] at h
    rw [rereadDecls, decl.reread_eq h.1, rereadDecls_eq decls h.2]

theorem Value.reread_eq (value : Value) (h : ∀ a ∈ value.atoms, a.Marked) :
    value.reread = value := by
  match value with
  | .null | .boolean _ | .bigint _ | .double _ | .varchar _ => rfl
  | .datum type constructor =>
    simp only [Value.atoms, List.forall_mem_cons] at h
    rw [Value.reread, constructor.reread_eq h.2]
  | .array values =>
    rw [Value.reread, rereadValues_eq values h]
  | .map entries =>
    simp only [Value.atoms, List.forall_mem_cons] at h
    rw [Value.reread, rereadEntries_eq entries h.2]
  | .typeDecl decl =>
    simp only [Value.atoms, List.forall_mem_cons] at h
    rw [Value.reread, decl.reread_eq h.2]
  | .typedValue type constructor =>
    simp only [Value.atoms, List.forall_mem_cons, List.forall_mem_append] at h
    rw [Value.reread, type.reread_eq h.2.1, constructor.reread_eq h.2.2]
  | .namedValue type constructor =>
    simp only [Value.atoms, List.forall_mem_cons] at h
    have hstring : constructor.isVarchar = true := h.1
    rw [Value.reread, if_pos hstring, constructor.reread_eq h.2]

theorem rereadValues_eq (values : List Value) (h : ∀ a ∈ valuesAtoms values, a.Marked) :
    rereadValues values = values := by
  match values with
  | [] => rfl
  | value :: values =>
    simp only [valuesAtoms, List.forall_mem_append] at h
    rw [rereadValues, value.reread_eq h.1, rereadValues_eq values h.2]

theorem rereadEntries_eq (entries : List (Text × Value))
    (h : ∀ a ∈ entriesAtoms entries, a.Marked) : rereadEntries entries = entries := by
  match entries with
  | [] => rfl
  | (key, value) :: entries =>
    simp only [entriesAtoms, List.forall_mem_cons, List.forall_mem_append] at h
    rw [rereadEntries, value.reread_eq h.2.1, rereadEntries_eq entries h.2.2]

end

variable (dictionary : Dictionary)

mutual

theorem TypeDeclaration.build_eq (decl : TypeDeclaration)
    (h : ∀ a ∈ decl.atoms, a.Resolved registered dictionary) :
    decl.build registered dictionary = some decl := by
  match decl with
  | .mk name params args =>
    simp only [TypeDeclaration.atoms, List.forall_mem_cons, List.forall_mem_append] at h
    rw [TypeDeclaration.build, buildDecls_eq params h.2.1, buildValues_eq args h.2.2]
    rfl

theorem buildDecls_eq (decls : List TypeDeclaration)
    (h : ∀ a ∈ declsAtoms decls, a.Resolved registered dictionary) :
    buildDecls registered dictionary decls = some decls := by
  match decls with
  | [] => rfl
  | decl :: decls =>
    simp only [declsAtoms, List.forall_mem_append] at h
    rw [buildDecls, decl.build_eq h.1, buildDecls_eq decls h.2]
    rfl

theorem Value.build_eq (value : Value)
    (h : ∀ a ∈ value.atoms, a.Resolved registered dictionary) :
    value.build registered dictionary = some value := by
  match value with
  | .null | .boolean _ | .bigint _ | .double _ | .varchar _ => rfl
  | .datum type constructor =>
    simp only [Value.atoms, List.forall_mem_cons] at h
    rw [Value.build, constructor.build_eq h.2]
    rfl
  | .array values =>
    rw [Value.build, buildValues_eq values h]
    rfl
  | .map entries =>
    simp only [Value.atoms, List.forall_mem_cons] at h
    rw [Value.build, buildEntries_eq entries h.2]
    rfl
  | .typeDecl decl =>
    simp only [Value.atoms, List.forall_mem_cons] at h
    rw [Value.build, decl.build_eq h.2]
    rfl
  | .typedValue type constructor =>
    simp only [Value.atoms, List.forall_mem_cons, List.forall_mem_append] at h
    have htype : registered type.toCxxTypedecl = false := h.1
    rw [Value.build, type.build_eq h.2.1, constructor.build_eq h.2.2]
    simp [newTypedValue, htype]
  | .namedValue type constructor =>
    simp only [Value.atoms, List.forall_mem_cons] at h
    obtain ⟨decl, hlookup, hdecl⟩ := h.1
    rw [Value.build, constructor.build_eq h.2]
    simp [hlookup, newTypedValue, hdecl]

theorem buildValues_eq (values : List Value)
    (h : ∀ a ∈ valuesAtoms values, a.Resolved registered dictionary) :
    buildValues registered dictionary values = some values := by
  match values with
  | [] => rfl
  | value :: values =>
    simp only [valuesAtoms, List.forall_mem_append] at h
    rw [buildValues, value.build_eq h.1, buildValues_eq values h.2]
    rfl

theorem buildEntries_eq (entries : List (Text × Value))
    (h : ∀ a ∈ entriesAtoms entries, a.Resolved registered dictionary) :
    buildEntries registered dictionary entries = some entries := by
  match entries with
  | [] => rfl
  | (key, value) :: entries =>
    simp only [entriesAtoms, List.forall_mem_cons, List.forall_mem_append] at h
    rw [buildEntries, value.build_eq h.2.1, buildEntries_eq entries h.2.2]
    rfl

end

def Atom.Referred (dictionary : Dictionary) : Atom → Prop
  | .reference s string => string = true ∧ s ∈ dictionary.map (·.1)
  | _ => True

theorem Atom.Referred.marked {dictionary : Dictionary} {a : Atom} (h : a.Referred dictionary) :
    a.Marked := by
  cases a with
  | reference s string => exact h.1
  | _ => trivial

theorem mem_keys_of_lookup {dictionary : Dictionary} {s : Text} {decl : TypeDeclaration}
    (h : dictionary.lookup s = some decl) : s ∈ dictionary.map (·.1) := by
  obtain ⟨before, after, rfl, -⟩ := List.lookup_eq_some_iff.mp h
  simp

theorem newTypedValue_eq {type : TypeDeclaration} {constructor unregistered value : Value}
    (h : newTypedValue registered type constructor unregistered = value) :
    value = unregistered ∨ value = .datum type.toCxxTypedecl constructor := by
  unfold newTypedValue at h
  split_ifs at h
  · exact .inr h.symm
  · exact .inl h.symm

mutual

/-- A declaration that is built from what is read of it refers to named types as it should. -/
theorem TypeDeclaration.referred_of_build (decl : TypeDeclaration)
    (h : decl.reread.build registered dictionary = some decl) :
    ∀ a ∈ decl.atoms, a.Referred dictionary := by
  match decl with
  | .mk name params args =>
    simp only [TypeDeclaration.reread, TypeDeclaration.build, Option.bind_eq_bind,
      Option.bind_eq_some_iff] at h
    obtain ⟨params', hparams, args', hargs, heq⟩ := h
    cases heq
    simp only [TypeDeclaration.atoms, List.forall_mem_cons, List.forall_mem_append]
    exact ⟨trivial, referredDecls_of_build params hparams, referredValues_of_build args hargs⟩

theorem referredDecls_of_build (decls : List TypeDeclaration)
    (h : buildDecls registered dictionary (rereadDecls decls) = some decls) :
    ∀ a ∈ declsAtoms decls, a.Referred dictionary := by
  match decls with
  | [] => simp [declsAtoms]
  | decl :: decls =>
    simp only [rereadDecls, buildDecls, Option.bind_eq_bind, Option.bind_eq_some_iff] at h
    obtain ⟨decl', hdecl, decls', hdecls, heq⟩ := h
    cases heq
    simp only [declsAtoms, List.forall_mem_append]
    exact ⟨decl.referred_of_build hdecl, referredDecls_of_build decls hdecls⟩

theorem Value.referred_of_build (value : Value)
    (h : value.reread.build registered dictionary = some value) :
    ∀ a ∈ value.atoms, a.Referred dictionary := by
  match value with
  | .null | .boolean _ | .bigint _ => simp [Value.atoms]
  | .double _ | .varchar _ => simp [Value.atoms, Atom.Referred]
  | .datum type constructor =>
    simp only [Value.reread, Value.build, Option.bind_eq_bind, Option.bind_eq_some_iff] at h
    obtain ⟨constructor', hconstructor, heq⟩ := h
    cases heq
    simp only [Value.atoms, List.forall_mem_cons]
    exact ⟨trivial, constructor.referred_of_build hconstructor⟩
  | .array values =>
    simp only [Value.reread, Value.build, Option.bind_eq_bind, Option.bind_eq_some_iff] at h
    obtain ⟨values', hvalues, heq⟩ := h
    cases heq
    exact referredValues_of_build values hvalues
  | .map entries =>
    simp only [Value.reread, Value.build, Option.bind_eq_bind, Option.bind_eq_some_iff] at h
    obtain ⟨entries', hentries, heq⟩ := h
    cases heq
    simp only [Value.atoms, List.forall_mem_cons]
    exact ⟨trivial, referredEntries_of_build entries hentries⟩
  | .typeDecl decl =>
    simp only [Value.reread, Value.build, Option.bind_eq_bind, Option.bind_eq_some_iff] at h
    obtain ⟨decl', hdecl, heq⟩ := h
    cases heq
    simp only [Value.atoms, List.forall_mem_cons]
    exact ⟨trivial, decl.referred_of_build hdecl⟩
  | .typedValue type constructor =>
    simp only [Value.reread, Value.build, Option.bind_eq_bind, Option.bind_eq_some_iff] at h
    obtain ⟨type', htype, constructor', hconstructor, heq⟩ := h
    obtain heq | heq := newTypedValue_eq (Option.some.inj heq)
    · cases heq
      simp only [Value.atoms, List.forall_mem_cons, List.forall_mem_append]
      exact ⟨trivial, type.referred_of_build htype, constructor.referred_of_build hconstructor⟩
    · cases heq
  | .namedValue type constructor =>
    rw [Value.reread] at h
    by_cases hstring : constructor.isVarchar = true
    · simp only [if_pos hstring, Value.build, Option.bind_eq_bind, Option.bind_eq_some_iff] at h
      obtain ⟨constructor', hconstructor, decl, hlookup, heq⟩ := h
      obtain heq | heq := newTypedValue_eq (Option.some.inj heq)
      · cases heq
        simp only [Value.atoms, List.forall_mem_cons]
        exact ⟨⟨hstring, mem_keys_of_lookup hlookup⟩, constructor.referred_of_build hconstructor⟩
      · cases heq
    · -- the type that was read is a declaration of its own
      simp only [if_neg hstring, Value.build, Option.bind_eq_bind, Option.bind_eq_some_iff] at h
      obtain ⟨decl, -, constructor', -, heq⟩ := h
      obtain heq | heq := newTypedValue_eq (Option.some.inj heq) <;> cases heq

theorem referredValues_of_build (values : List Value)
    (h : buildValues registered dictionary (rereadValues values) = some values) :
    ∀ a ∈ valuesAtoms values, a.Referred dictionary := by
  match values with
  | [] => simp [valuesAtoms]
  | value :: values =>
    simp only [rereadValues, buildValues, Option.bind_eq_bind, Option.bind_eq_some_iff] at h
    obtain ⟨value', hvalue, values', hvalues, heq⟩ := h
    cases heq
    simp only [valuesAtoms, List.forall_mem_append]
    exact ⟨value.referred_of_build hvalue, referredValues_of_build values hvalues⟩

theorem referredEntries_of_build (entries : List (Text × Value))
    (h : buildEntries registered dictionary (rereadEntries entries) = some entries) :
    ∀ a ∈ entriesAtoms entries, a.Referred dictionary := by
  match entries with
  | [] => simp [entriesAtoms]
  | (key, value) :: entries =>
    simp only [rereadEntries, buildEntries, Option.bind_eq_bind, Option.bind_eq_some_iff] at h
    obtain ⟨value', hvalue, entries', hentries, heq⟩ := h
    cases heq
    simp only [entriesAtoms, List.forall_mem_cons, List.forall_mem_append]
    exact ⟨trivial, value.referred_of_build hvalue, referredEntries_of_build entries hentries⟩

end

mutual

theorem TypeDeclaration.build_spelled (decl built : TypeDeclaration)
    (h : decl.build registered dictionary = some built) (hdecl : decl.Spelled) :
    built.Spelled ∧ built.name = decl.name := by
  match decl with
  | .mk name params args =>
    simp only [TypeDeclaration.build, Option.bind_eq_bind, Option.bind_eq_some_iff] at h
    obtain ⟨params', hparams, args', hargs, heq⟩ := h
    cases heq
    simp only [TypeDeclaration.Spelled, TypeDeclaration.atoms, List.forall_mem_cons,
      List.forall_mem_append] at hdecl ⊢
    exact ⟨⟨hdecl.1, buildDecls_spelled params _ hparams hdecl.2.1,
      buildValues_spelled args _ hargs hdecl.2.2⟩, rfl⟩

theorem buildDecls_spelled (decls built : List TypeDeclaration)
    (h : buildDecls registered dictionary decls = some built)
    (hdecls : ∀ a ∈ declsAtoms decls, a.Spelled) : ∀ a ∈ declsAtoms built, a.Spelled := by
  match decls with
  | [] =>
    cases h
    exact hdecls
  | decl :: decls =>
    simp only [buildDecls, Option.bind_eq_bind, Option.bind_eq_some_iff] at h
    obtain ⟨decl', hdecl, decls', hdecls', heq⟩ := h
    cases heq
    simp only [declsAtoms, List.forall_mem_append] at hdecls ⊢
    exact ⟨(decl.build_spelled _ hdecl hdecls.1).1, buildDecls_spelled decls _ hdecls' hdecls.2⟩

theorem Value.build_spelled (value built : Value)
    (h : value.build registered dictionary = some built) (hvalue : value.Spelled) :
    built.Spelled := by
  match value with
  | .null | .boolean _ | .bigint _ | .double _ | .varchar _ =>
    cases h
    exact hvalue
  | .datum type constructor =>
    simp only [Value.build, Option.bind_eq_bind, Option.bind_eq_some_iff] at h
    obtain ⟨constructor', hconstructor, heq⟩ := h
    cases heq
    simp only [Value.Spelled, Value.atoms, List.forall_mem_cons] at hvalue ⊢
    exact ⟨trivial, constructor.build_spelled _ hconstructor hvalue.2⟩
  | .array values =>
    simp only [Value.build, Option.bind_eq_bind, Option.bind_eq_some_iff] at h
    obtain ⟨values', hvalues, heq⟩ := h
    cases heq
    exact buildValues_spelled values _ hvalues hvalue
  | .map entries =>
    simp only [Value.build, Option.bind_eq_bind, Option.bind_eq_some_iff] at h
    obtain ⟨entries', hentries, heq⟩ := h
    cases heq
    simp only [Value.Spelled, Value.atoms, List.forall_mem_cons] at hvalue ⊢
    exact ⟨trivial, buildEntries_spelled entries _ hentries hvalue.2⟩
  | .typeDecl decl =>
    simp only [Value.build, Option.bind_eq_bind, Option.bind_eq_some_iff] at h
    obtain ⟨decl', hdecl, heq⟩ := h
    cases heq
    simp only [Value.Spelled, Value.atoms, List.forall_mem_cons] at hvalue ⊢
    obtain ⟨hspelled, hname⟩ := decl.build_spelled _ hdecl hvalue.2
    rw [hname]
    exact ⟨hvalue.1, hspelled⟩
  | .typedValue type constructor =>
    simp only [Value.build, Option.bind_eq_bind, Option.bind_eq_some_iff] at h
    obtain ⟨type', htype, constructor', hconstructor, heq⟩ := h
    simp only [Value.Spelled, Value.atoms, List.forall_mem_cons, List.forall_mem_append] at hvalue
    have hspelled := constructor.build_spelled _ hconstructor hvalue.2.2
    obtain heq | heq := newTypedValue_eq (Option.some.inj heq)
    · rw [heq]
      simp only [Value.Spelled, Value.atoms, List.forall_mem_cons, List.forall_mem_append]
      exact ⟨trivial, (type.build_spelled _ htype hvalue.2.1).1, hspelled⟩
    · rw [heq]
      simp only [Value.Spelled, Value.atoms, List.forall_mem_cons]
      exact ⟨trivial, hspelled⟩
  | .namedValue type constructor =>
    simp only [Value.build, Option.bind_eq_bind, Option.bind_eq_some_iff] at h
    obtain ⟨constructor', hconstructor, decl, -, heq⟩ := h
    simp only [Value.Spelled, Value.atoms, List.forall_mem_cons] at hvalue
    have hspelled := constructor.build_spelled _ hconstructor hvalue.2
    obtain heq | heq := newTypedValue_eq (Option.some.inj heq) <;>
    · rw [heq]
      simp only [Value.Spelled, Value.atoms, List.forall_mem_cons]
      exact ⟨trivial, hspelled⟩

theorem buildValues_spelled (values built : List Value)
    (h : buildValues registered dictionary values = some built)
    (hvalues : ∀ a ∈ valuesAtoms values, a.Spelled) : ∀ a ∈ valuesAtoms built, a.Spelled := by
  match values with
  | [] =>
    cases h
    exact hvalues
  | value :: values =>
    simp only [buildValues, Option.bind_eq_bind, Option.bind_eq_some_iff] at h
    obtain ⟨value', hvalue, values', hvalues', heq⟩ := h
    cases heq
    simp only [valuesAtoms, List.forall_mem_append] at hvalues ⊢
    exact ⟨value.build_spelled _ hvalue hvalues.1, buildValues_spelled values _ hvalues' hvalues.2⟩

theorem buildEntries_spelled (entries built : List (Text × Value))
    (h : buildEntries registered dictionary entries = some built)
    (hentries : ∀ a ∈ entriesAtoms entries, a.Spelled) : ∀ a ∈ entriesAtoms built, a.Spelled := by
  match entries with
  | [] =>
    cases h
    exact hentries
  | (key, value) :: entries =>
    simp only [buildEntries, Option.bind_eq_bind, Option.bind_eq_some_iff] at h
    obtain ⟨value', hvalue, entries', hentries', heq⟩ := h
    cases heq
    simp only [entriesAtoms, List.forall_mem_cons, List.forall_mem_append] at hentries ⊢
    exact ⟨hentries.1, value.build_spelled _ hvalue hentries.2.1,
      buildEntries_spelled entries _ hentries' hentries.2.2⟩

end

theorem not_mem_of_nodup_append {done rest : Dictionary} {name : Text} {decl : TypeDeclaration}
    (h : ((done ++ (name, decl) :: rest).map (·.1)).Nodup) : name ∉ done.map (·.1) := by
  rw [List.map_append, List.nodup_append] at h
  intro hmem
  exact h.2.2 _ hmem _ List.mem_cons_self rfl

theorem buildDictionary_eq {done rest : Dictionary}
    (hnames : ((done ++ rest).map (·.1)).Nodup)
    (hbuilt : ∀ e ∈ rest, ∀ a ∈ e.2.atoms, a.Resolved registered (done ++ rest))
    (horder : Dictionary.InOrder (done.map (·.1)) rest) :
    buildDictionary registered done rest = some (done ++ rest) := by
  induction rest generalizing done with
  | nil => simp [buildDictionary]
  | cons e rest ih =>
    obtain ⟨name, decl⟩ := e
    have hnew := not_mem_of_nodup_append hnames
    have hdecl : decl.build registered done = some decl := by
      apply decl.build_eq
      intro a ha
      have hresolved := hbuilt (name, decl) List.mem_cons_self a ha
      cases a with
      | reference s string =>
        -- the type is found before the declaration, so it is the one the document has
        obtain ⟨target, htarget, hregistered⟩ := hresolved
        refine ⟨target, ?_, hregistered⟩
        have hseen := horder.1 s string ha
        obtain ⟨found, hfound⟩ : ∃ found, done.lookup s = some found := by
          cases hlookup : done.lookup s with
          | some found => exact ⟨found, rfl⟩
          | none =>
            obtain ⟨e, he, rfl⟩ := List.mem_map.mp hseen
            have := List.lookup_eq_none_iff.mp hlookup e he
            simp at this
        rw [List.lookup_append, hfound] at htarget
        exact hfound.trans htarget
      | _ => exact hresolved
    have happend : done ++ (name, decl) :: rest = (done ++ [(name, decl)]) ++ rest := by simp
    rw [buildDictionary, hdecl]
    simp only [Option.bind_eq_bind, Option.bind_some, put_eq_append decl hnew]
    rw [happend] at hnames hbuilt ⊢
    refine ih hnames (fun e he => hbuilt e (List.mem_cons_of_mem _ he)) ?_
    simpa using horder.2

theorem buildDictionary_prefix {done rest final : Dictionary}
    (hnames : ((done ++ rest).map (·.1)).Nodup)
    (h : buildDictionary registered done rest = some final) : done <+: final := by
  induction rest generalizing done with
  | nil =>
    cases h
    exact List.prefix_refl _
  | cons e rest ih =>
    obtain ⟨name, decl⟩ := e
    simp only [buildDictionary, Option.bind_eq_bind, Option.bind_eq_some_iff] at h
    obtain ⟨built, -, h⟩ := h
    have hnew := not_mem_of_nodup_append hnames
    rw [put_eq_append built hnew] at h
    exact (List.prefix_append _ _).trans (ih (by simpa using hnames) h)

theorem rereadDictionary_eq {dictionary : Dictionary}
    (h : ∀ e ∈ dictionary, ∀ a ∈ e.2.atoms, a.Marked) :
    rereadDictionary dictionary = dictionary := by
  have hsame : ∀ e ∈ dictionary, (e.1, e.2.reread) = e := by
    intro e he
    rw [e.2.reread_eq (h e he)]
  rw [rereadDictionary, List.map_congr_left hsame, List.map_id']

theorem keys_rereadDictionary (dictionary : Dictionary) :
    (rereadDictionary dictionary).map (·.1) = dictionary.map (·.1) := by
  simp [rereadDictionary]

/-- A dictionary that is built from what is read of it is in order, with all its references
marked. -/
theorem inOrder_of_buildDictionary {done rest : Dictionary}
    (hnames : ((done ++ rest).map (·.1)).Nodup)
    (h : buildDictionary registered done (rereadDictionary rest) = some (done ++ rest)) :
    Dictionary.InOrder (done.map (·.1)) rest ∧ ∀ e ∈ rest, ∀ a ∈ e.2.atoms, a.Marked := by
  induction rest generalizing done with
  | nil => exact ⟨trivial, fun e he => nomatch he⟩
  | cons e rest ih =>
    obtain ⟨name, decl⟩ := e
    have hnew := not_mem_of_nodup_append hnames
    simp only [rereadDictionary, List.map_cons, buildDictionary, Option.bind_eq_bind,
      Option.bind_eq_some_iff] at h
    obtain ⟨built, hbuilt, h⟩ := h
    rw [put_eq_append built hnew] at h
    have hstart : done ++ [(name, built)] <+: done ++ (name, decl) :: rest := by
      refine buildDictionary_prefix ?_ h
      rw [List.map_append, ← rereadDictionary, keys_rereadDictionary]
      simpa using hnames
    have hsame : built = decl := by
      have hhead := (List.prefix_append_right_inj done).mp hstart
      exact congrArg Prod.snd (List.cons_prefix_cons.mp hhead).1
    subst hsame
    have hreferred := built.referred_of_build done hbuilt
    have hrest : buildDictionary registered (done ++ [(name, built)]) (rereadDictionary rest)
        = some (done ++ [(name, built)] ++ rest) := by simpa [rereadDictionary] using h
    obtain ⟨horder, hmarked⟩ := ih (by simpa using hnames) hrest
    refine ⟨⟨?_, ?_⟩, ?_⟩
    · intro s string hmem
      exact (hreferred _ hmem).2
    · simpa using horder
    · intro e he
      obtain rfl | he := List.mem_cons.mp he
      · exact fun a ha => (hreferred a ha).marked
      · exact hmarked e he

theorem buildDictionary_spelled {done rest final : Dictionary}
    (h : buildDictionary registered done rest = some final)
    (hdone : ∀ e ∈ done, Trimmed e.1 ∧ e.2.Spelled) (hrest : ∀ e ∈ rest, Trimmed e.1 ∧ e.2.Spelled) :
    ∀ e ∈ final, Trimmed e.1 ∧ e.2.Spelled := by
  induction rest generalizing done with
  | nil =>
    cases h
    exact hdone
  | cons e rest ih =>
    obtain ⟨name, decl⟩ := e
    simp only [buildDictionary, Option.bind_eq_bind, Option.bind_eq_some_iff] at h
    obtain ⟨built, hbuilt, h⟩ := h
    obtain ⟨hname, hdecl⟩ := hrest (name, decl) List.mem_cons_self
    refine ih h ?_ (fun e he => hrest e (List.mem_cons_of_mem _ he))
    intro e he
    obtain he | rfl := mem_put he
    · exact hdone e he
    · exact ⟨hname, (decl.build_spelled _ built hbuilt hdecl).1⟩

theorem typeDirectory_spelled {text rest : Text} {directory : Dictionary}
    (h : typeDirectory text = some (directory, rest)) :
    ∀ e ∈ directory, Trimmed e.1 ∧ e.2.Spelled := by
  refine enclosed_property ?_ (show '}' ≠ '(' by decide) h
  intro text entry rest hentry
  simp only [typeDirectoryEntry, Option.bind_eq_bind, Option.bind_eq_some_iff] at hentry
  obtain ⟨⟨name, _⟩, hname, ⟨_, _⟩, -, ⟨decl, _⟩, hdecl, heq⟩ := hentry
  cases heq
  exact .inl ⟨Trimmed.of_identifier hname, parseDeclaration_spelled hdecl⟩

theorem parse_eq_some {text : Text} {doc : Document} (h : parse registered text = some doc) :
    ∃ raw rest behind, parseValue (opt typeDirectory [] text).2 = some (raw, rest) ∧
      skip rest = [] ∧
      buildDictionary registered [] (opt typeDirectory [] text).1 = some behind ∧
      doc.namedTypes = behind ∧ raw.build registered behind = some doc.value := by
  simp only [parse, Option.bind_eq_bind, Option.bind_eq_some_iff] at h
  obtain ⟨⟨raw, rest⟩, hraw, h⟩ := h
  have hend : (skip rest).isEmpty = true := by
    by_contra hend
    rw [if_neg hend] at h
    cases h
  simp only [if_pos hend, Option.bind_eq_some_iff] at h
  obtain ⟨dictionary, hdictionary, value, hvalue, heq⟩ := h
  cases heq
  refine ⟨raw, rest, dictionary, hraw, List.isEmpty_iff.mp hend, hdictionary, ?_, hvalue⟩
  unfold Document.namedTypes
  split_ifs with hempty
  · rw [List.isEmpty_iff.mp hempty] at hdictionary
    cases hdictionary
    rfl
  · rfl

/-- A document that is parsed has only strings and names that the grammar gives. -/
theorem parse_spelled {text : Text} {doc : Document} (h : parse registered text = some doc) :
    ∀ a ∈ doc.atoms, a.Spelled := by
  obtain ⟨raw, rest, dictionary, hraw, hend, hdictionary, hnames, hvalue⟩ := parse_eq_some h
  have hdirectory : ∀ e ∈ (opt typeDirectory [] text).1, Trimmed e.1 ∧ e.2.Spelled := by
    unfold opt
    cases hrun : typeDirectory text with
    | none => exact fun e he => nomatch he
    | some read => exact typeDirectory_spelled hrun
  have hspelled : raw.Spelled := by
    obtain hspelled | hstuck := parseValue_spelled hraw
    · exact hspelled
    · cases rest with
      | nil => cases hstuck
      | cons c rest =>
        cases hstuck
        rw [skip_cons (by decide)] at hend
        cases hend
  simp only [Document.atoms, List.forall_mem_append]
  refine ⟨?_, raw.build_spelled _ _ hvalue hspelled⟩
  intro a ha
  obtain ⟨e, he, ha⟩ := List.mem_flatMap.mp ha
  rw [hnames] at he
  obtain ⟨hname, hdecl⟩ := buildDictionary_spelled hdictionary (fun e he => nomatch he) hdirectory e he
  obtain rfl | ha := List.mem_cons.mp ha
  · exact hname
  · exact hdecl a ha

/-- The grammar reads a document of strings and names that it can give. -/
theorem Document.WellFormed.readable {doc : Document} (h : doc.WellFormed registered)
    (hspelled : ∀ a ∈ doc.atoms, a.Spelled) : ∀ a ∈ doc.atoms, a.Readable := by
  intro a ha
  have hbuilt := h.built a ha
  have hspelling := hspelled a ha
  cases a with
  | text s => exact hspelling
  | name s => exact Word.of_isIdentifier hbuilt hspelling
  | standing s => exact hspelling
  | keys ks => exact hbuilt
  | type s => trivial
  | reference s string =>
    -- the name of the type is one of the dictionary
    obtain ⟨decl, hlookup, -⟩ := hbuilt
    obtain ⟨e, he, rfl⟩ := List.mem_map.mp (mem_keys_of_lookup hlookup)
    have hname : Atom.name e.1 ∈ doc.atoms :=
      List.mem_append_left _ (List.mem_flatMap.mpr ⟨e, he, List.mem_cons_self⟩)
    exact Word.of_isIdentifier (h.built _ hname) (hspelled _ hname)
  | registered => exact hbuilt

end Building

theorem Atom.Recoverable.spelled {a : Atom} (h : a.Recoverable) : a.Spelled := by
  cases a with
  | text s => exact h
  | name s => exact h
  | standing s => exact h
  | _ => trivial

theorem Atom.Recoverable.marked {a : Atom} (h : a.Recoverable) : a.Marked := by
  cases a with
  | reference s string => exact h
  | _ => trivial

theorem Atom.recoverable {a : Atom} (hspelled : a.Spelled) (hmarked : a.Marked) :
    a.Recoverable := by
  cases a with
  | text s => exact hspelled
  | name s => exact hspelled
  | standing s => exact hspelled
  | reference s string => exact hmarked
  | _ => trivial

theorem Atom.Built.resolved {registered : Text → Bool} {dictionary : Dictionary} {a : Atom}
    (h : a.Built registered dictionary) : a.Resolved registered dictionary := by
  cases a with
  | type s => exact h
  | reference s string => exact h
  | _ => trivial

/-- What is read of the text of a document is the document. -/
theorem parse_of_dump_iff {registered : Text → Bool} {doc : Document}
    (hdoc : doc.WellFormed registered) {state : DumpFormatState}
    (hstate : state = .default ∨ state = .simple ∨ state = .noIndent) :
    (∃ doc', parse registered (doc.dump state) = some doc' ∧ doc'.namedTypes = doc.namedTypes ∧
        doc'.value = doc.value) ↔
      (∀ a ∈ doc.atoms, a.Recoverable) ∧ Dictionary.InOrder [] doc.namedTypes := by
  have hblank : state.Blank := by
    obtain rfl | rfl | rfl := hstate
    · exact DumpFormatState.blank_default
    · exact DumpFormatState.blank_simple
    · exact DumpFormatState.blank_noIndent
  constructor
  · rintro ⟨doc', hparse, hnames, hvalue⟩
    have hspelled : ∀ a ∈ doc.atoms, a.Spelled := by
      have := parse_spelled hparse
      rwa [Document.atoms, hnames, hvalue] at this
    obtain ⟨text, hdirectory, hread⟩ := Document.read hblank (hdoc.readable hspelled)
    obtain ⟨raw, rest, dictionary, hraw, -, hbuild, hnames', hbuilt⟩ := parse_eq_some hparse
    rw [hdirectory] at hraw hbuild
    rw [hread] at hraw
    cases hraw
    rw [← hnames', hnames] at hbuild hbuilt
    rw [hvalue] at hbuilt
    obtain ⟨horder, hmarked⟩ := inOrder_of_buildDictionary hdoc.names hbuild
    refine ⟨fun a ha => Atom.recoverable (hspelled a ha) ?_, horder⟩
    obtain ha | ha := List.mem_append.mp ha
    · obtain ⟨e, he, ha⟩ := List.mem_flatMap.mp ha
      obtain rfl | ha := List.mem_cons.mp ha
      · trivial
      · exact hmarked e he a ha
    · exact (doc.value.referred_of_build _ hbuilt a ha).marked
  · rintro ⟨hrecoverable, horder⟩
    obtain ⟨text, hdirectory, hread⟩ := Document.read hblank
      (hdoc.readable fun a ha => (hrecoverable a ha).spelled)
    have hentries : ∀ e ∈ doc.namedTypes, ∀ a ∈ e.2.atoms, a ∈ doc.atoms := fun e he a ha =>
      List.mem_append_left _ (List.mem_flatMap.mpr ⟨e, he, List.mem_cons_of_mem _ ha⟩)
    have hvalues : ∀ a ∈ doc.value.atoms, a ∈ doc.atoms := fun a ha => List.mem_append_right _ ha
    have hdictionary : rereadDictionary doc.namedTypes = doc.namedTypes :=
      rereadDictionary_eq fun e he a ha => (hrecoverable a (hentries e he a ha)).marked
    have hvalue := doc.value.reread_eq fun a ha => (hrecoverable a (hvalues a ha)).marked
    have hbuild : buildDictionary registered [] doc.namedTypes = some doc.namedTypes :=
      buildDictionary_eq hdoc.names
        (fun e he a ha => (hdoc.built a (hentries e he a ha)).resolved) horder
    have hbuilt : doc.value.build registered doc.namedTypes = some doc.value :=
      doc.value.build_eq _ fun a ha => (hdoc.built a (hvalues a ha)).resolved
    rw [hdictionary] at hdirectory
    rw [hvalue] at hread
    refine ⟨⟨if doc.namedTypes.isEmpty then none else some doc.namedTypes, doc.value⟩, ?_, ?_, rfl⟩
    · simp only [parse, hdirectory, hread, hbuild, hbuilt, Option.bind_eq_bind, Option.bind_some]
      rfl
    · unfold Document.namedTypes
      split_ifs with hempty
      · exact (List.isEmpty_iff.mp hempty).symm
      · rfl

def namedString : Document :=
  ⟨some [(['N'], .mk ['D'] [] [.bigint 10])], .array [.namedValue ['N'] (.varchar ['v'])]⟩

def roomy : Arenas :=
  ⟨fun _ => [⟨4096, 200, 0, fun _ => 0⟩], fun _ => [⟨4096, 200, 0, fun _ => 0⟩]⟩

theorem roomy_stays (visit : Visit) : roomy.leaveAt visit = false := by
  have hstays : ¬ (⟨4096, 200, 0, fun _ => 0⟩ : LinkedArena).Moves
      ((⟨4096, 200, 0, fun _ => 0⟩ : LinkedArena).vectorBytes 1) := by decide
  cases visit with
  | value text => rfl
  | declaration text =>
    refine (Option.any_eq_false _ _).mpr ?_
    rintro ⟨⟨name, params, args⟩, rest⟩ -
    simp [Arenas.leave, roomy, hstays]

def backslash : Document := ⟨none, .varchar ['\\']⟩

end Memoria.Sdn

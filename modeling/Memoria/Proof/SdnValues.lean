import Memoria.Proof.SdnRead

namespace Memoria.Sdn

open Peg

/-! Reading the text of a whole value, by induction on the value. -/

inductive Atom where
  /-- A string or the key of a map. -/
  | text (text : Text)
  /-- The name of a declared type. -/
  | name (name : Text)
  /-- The name of a declaration that is a value itself. -/
  | standing (name : Text)
  /-- The keys of a map. -/
  | keys (keys : List Text)
  /-- The type of a typed value, by its C++ name. -/
  | type (cxxTypedecl : Text)
  /-- The named type of a typed value, and whether its constructor is a string. -/
  | reference (name : Text) (string : Bool)
  /-- A double or a value of a registered type. -/
  | registered

mutual

def TypeDeclaration.atoms : TypeDeclaration → List Atom
  | .mk name params args => .name name :: (declsAtoms params ++ valuesAtoms args)

def declsAtoms : List TypeDeclaration → List Atom
  | [] => []
  | decl :: decls => decl.atoms ++ declsAtoms decls

def Value.atoms : Value → List Atom
  | .null | .boolean _ | .bigint _ => []
  | .double _ => [.registered]
  | .varchar text => [.text text]
  | .datum _ constructor => .registered :: constructor.atoms
  | .array values => valuesAtoms values
  | .map entries => .keys (entries.map (·.1)) :: entriesAtoms entries
  | .typeDecl decl => .standing decl.name :: decl.atoms
  | .typedValue type constructor =>
    .type type.toCxxTypedecl :: (type.atoms ++ constructor.atoms)
  | .namedValue type constructor => .reference type constructor.isVarchar :: constructor.atoms

def valuesAtoms : List Value → List Atom
  | [] => []
  | value :: values => value.atoms ++ valuesAtoms values

def entriesAtoms : List (Text × Value) → List Atom
  | [] => []
  | (key, value) :: entries => .text key :: (value.atoms ++ entriesAtoms entries)

end

mutual

def TypeDeclaration.reread : TypeDeclaration → TypeDeclaration
  | .mk name params args => .mk name (rereadDecls params) (rereadValues args)

def rereadDecls : List TypeDeclaration → List TypeDeclaration
  | [] => []
  | decl :: decls => decl.reread :: rereadDecls decls

def Value.reread : Value → Value
  | .null => .null
  | .boolean value => .boolean value
  | .bigint value => .bigint value
  | .double literal => .double literal
  | .varchar text => .varchar text
  | .datum type constructor => .datum type constructor.reread
  | .array values => .array (rereadValues values)
  | .map entries => .map (rereadEntries entries)
  | .typeDecl decl => .typeDecl decl.reread
  | .typedValue type constructor => .typedValue type.reread constructor.reread
  | .namedValue type constructor =>
    if constructor.isVarchar then .namedValue type constructor.reread
    else .typedValue (.mk type [] []) constructor.reread

def rereadValues : List Value → List Value
  | [] => []
  | value :: values => value.reread :: rereadValues values

def rereadEntries : List (Text × Value) → List (Text × Value)
  | [] => []
  | (key, value) :: entries => (key, value.reread) :: rereadEntries entries

end

def Atom.Readable : Atom → Prop
  | .text s => ¬EndsInBackslash s
  | .name s => Word s
  | .standing s => startsReal s = false
  | .keys ks => ks.Nodup
  | .type _ => True
  | .reference s _ => Word s
  | .registered => False

theorem keys_rereadEntries (entries : List (Text × Value)) :
    (rereadEntries entries).map (·.1) = entries.map (·.1) := by
  induction entries with
  | nil => rfl
  | cons entry entries ih =>
    simp only [rereadEntries, List.map_cons, ih]

theorem put_eq_append {α : Type} {entries : List (Text × α)} {key : Text} (value : α)
    (h : key ∉ entries.map (·.1)) : put entries key value = entries ++ [(key, value)] :=
  if_neg h

/-- Different keys are put in the order in which they come. -/
theorem putAll_eq {α : Type} {entries : List (Text × α)} (h : (entries.map (·.1)).Nodup) :
    putAll entries = entries := by
  have hfold : ∀ done : List (Text × α), ((done ++ entries).map (·.1)).Nodup →
      entries.foldl (fun done e => put done e.1 e.2) done = done ++ entries := by
    clear h
    induction entries with
    | nil => simp
    | cons entry entries ih =>
      intro done hnodup
      have hnew : entry.1 ∉ done.map (·.1) := by
        rw [List.map_append, List.nodup_append] at hnodup
        intro hmem
        exact hnodup.2.2 _ hmem _ List.mem_cons_self rfl
      rw [List.foldl_cons, put_eq_append _ hnew, ih]
      · simp
      · simpa using hnodup
  exact hfold [] h

theorem Word.readsBack_reference {name : Text} (h : Word name) :
    ReadsBack (typeDeclOrReference parseValue parseDeclaration) ('#' :: name) (.inl name) := by
  intro blanks rest hblanks hrest
  have hmark := token_append (show isSpace '#' = false by decide) [] (name ++ rest)
  have hname := h.identifier_append (fun c hc => (hrest.head c hc).1)
  simp only [List.cons_append, List.nil_append] at hmark ⊢
  simp only [typeDeclOrReference, typeDeclaration_blank hblanks, token_blank hblanks,
    typeDeclaration_eq_none (show isSpace '#' = false by decide) _ (by decide), hmark,
    Option.bind_some, hname]
  rfl

theorem ReadsBack.declaration {text : Text} {decl : TypeDeclaration}
    (h : ReadsBack (typeDeclaration parseValue parseDeclaration) text decl) :
    ReadsBack (typeDeclOrReference parseValue parseDeclaration) text (.inr decl) := by
  intro blanks rest hblanks hrest
  simp only [typeDeclOrReference, h blanks rest hblanks hrest]
  rfl

theorem DumpFormatState.Blank.ite {state other : DumpFormatState} (hstate : state.Blank)
    (hother : other.Blank) (condition : Prop) [Decidable condition] :
    (if condition then state else other).Blank := by
  split_ifs
  · exact hstate
  · exact hother

theorem dumpValues_ne_nil {named : Text → Bool} {state : DumpFormatState} {values : List Value}
    (h : values.isEmpty = false) : dumpValues named state values ≠ [] := by
  cases values with
  | nil => cases h
  | cons value values => exact List.cons_ne_nil _ _

theorem dumpEntries_ne_nil {named : Text → Bool} {state : DumpFormatState}
    {entries : List (Text × Value)} (h : entries.isEmpty = false) :
    dumpEntries named state entries ≠ [] := by
  cases entries with
  | nil => cases h
  | cons entry entries => exact List.cons_ne_nil _ _

/-- A declaration ends with a bracket or with its name. -/
theorem head_dumpItems (state : DumpFormatState) (params args : List Text) :
    ∀ c ∈ (dumpItems state ['<'] ['>'] params ++ dumpItems state ['('] [')'] args).head?,
      isIdentPart c = false := by
  cases params with
  | nil =>
    cases args with
    | nil => exact fun c hc => nomatch hc
    | cons arg args =>
      intro c hc
      cases Option.mem_some.mp hc
      decide
  | cons param params =>
    intro c hc
    cases Option.mem_some.mp hc
    decide

section Reading

variable (named : Text → Bool)

mutual

theorem TypeDeclaration.readsBack (decl : TypeDeclaration) {state : DumpFormatState}
    (hstate : state.Blank) (h : ∀ a ∈ decl.atoms, a.Readable) :
    ReadsBack (typeDeclaration parseValue parseDeclaration) (decl.dump named state) decl.reread := by
  match decl with
  | .mk name params args =>
    simp only [TypeDeclaration.atoms, List.forall_mem_cons, List.forall_mem_append] at h
    obtain ⟨hname, hparams, hargs⟩ := h
    have hblank := hstate.ite DumpFormatState.blank_noIndent
      (state.indentSize = 0 ∨ (TypeDeclaration.mk name params args).isSimpleLayout named = false)
    exact readsBack_declaration hname hblank (readsBackDecls params hblank.push hparams)
      (readsBackValues args hblank.push hargs)

theorem readsBackDecls (decls : List TypeDeclaration) {state : DumpFormatState}
    (hstate : state.Blank) (h : ∀ a ∈ declsAtoms decls, a.Readable) :
    List.Forall₂ (ReadsBack parseDeclaration) (dumpDecls named state decls)
      (rereadDecls decls) := by
  match decls with
  | [] => exact .nil
  | decl :: decls =>
    simp only [declsAtoms, List.forall_mem_append] at h
    refine .cons ?_ (readsBackDecls decls hstate h.2)
    intro blanks rest hblanks hrest
    rw [parseDeclaration_eq]
    exact decl.readsBack hstate h.1 blanks rest hblanks hrest

theorem Value.readsBack (value : Value) {state : DumpFormatState} (hstate : state.Blank)
    (h : ∀ a ∈ value.atoms, a.Readable) :
    ReadsBack parseValue (value.dump named state) value.reread := by
  match value with
  | .null => exact readsBack_null
  | .boolean value => exact readsBack_boolean value
  | .bigint value => exact readsBack_bigint value
  | .double literal => exact (h .registered List.mem_cons_self).elim
  | .varchar text => exact readsBack_varchar (h (.text text) List.mem_cons_self)
  | .datum type constructor => exact (h .registered List.mem_cons_self).elim
  | .array values =>
    have hblank := hstate.ite DumpFormatState.blank_simple
      (state.indentSize = 0 ∨ (Value.array values).isSimpleLayout named = false)
    simp only [Value.atoms] at h
    rw [Value.dump, Value.reread]
    by_cases hempty : values.isEmpty = true
    · rw [if_pos hempty, List.isEmpty_iff.mp hempty]
      exact readsBack_array_nil
    · rw [if_neg hempty]
      exact readsBack_array hblank (dumpValues_ne_nil (by simpa using hempty))
        (readsBackValues values hblank.push h)
  | .map entries =>
    have hblank := hstate.ite DumpFormatState.blank_simple
      (state.indentSize = 0 ∨ (Value.map entries).isSimpleLayout named = false)
    simp only [Value.atoms, List.forall_mem_cons] at h
    rw [Value.dump, Value.reread]
    by_cases hempty : entries.isEmpty = true
    · rw [if_pos hempty, List.isEmpty_iff.mp hempty]
      exact readsBack_map_nil
    · have hkeys : ((rereadEntries entries).map (·.1)).Nodup := by
        rw [keys_rereadEntries]
        exact h.1
      rw [if_neg hempty, ← putAll_eq hkeys]
      exact readsBack_map hblank (dumpEntries_ne_nil (by simpa using hempty))
        (readsBackEntries entries hblank.push h.2)
  | .typeDecl decl =>
    simp only [Value.atoms, List.forall_mem_cons] at h
    have hread := decl.readsBack hstate h.2
    rw [Value.dump, Value.reread]
    match decl with
    | .mk name params args =>
      rw [TypeDeclaration.dump, List.append_assoc] at hread ⊢
      have hname : Word name := h.2 (.name name) List.mem_cons_self
      exact readsBack_typeDecl hname h.1 (head_dumpItems _ _ _) hread
  | .typedValue type constructor =>
    simp only [Value.atoms, List.forall_mem_cons, List.forall_mem_append] at h
    have htype := (type.readsBack hstate h.2.1).declaration
    rw [Value.dump, Value.reread]
    by_cases hvarchar : constructor.isVarchar = true
    · rw [if_pos hvarchar]
      match constructor with
      | .varchar text =>
        have htext : ¬EndsInBackslash text := h.2.2 (.text text) List.mem_cons_self
        exact readsBack_typed_varchar htext htype
    · rw [if_neg hvarchar]
      exact readsBack_typed htype (constructor.readsBack hstate h.2.2)
  | .namedValue type constructor =>
    simp only [Value.atoms, List.forall_mem_cons] at h
    have hname : Word type := h.1
    rw [Value.dump, Value.reread]
    by_cases hvarchar : constructor.isVarchar = true
    · rw [if_pos hvarchar, if_pos hvarchar]
      match constructor with
      | .varchar text =>
        have htext : ¬EndsInBackslash text := h.2 (.text text) List.mem_cons_self
        exact readsBack_typed_varchar htext hname.readsBack_reference
    · rw [if_neg hvarchar, if_neg hvarchar]
      have hdecl := readsBack_declaration hname hstate .nil .nil
      simp only [dumpItems, List.append_nil] at hdecl
      exact readsBack_typed hdecl.declaration (constructor.readsBack hstate h.2)

theorem readsBackValues (values : List Value) {state : DumpFormatState} (hstate : state.Blank)
    (h : ∀ a ∈ valuesAtoms values, a.Readable) :
    List.Forall₂ (ReadsBack parseValue) (dumpValues named state values)
      (rereadValues values) := by
  match values with
  | [] => exact .nil
  | value :: values =>
    simp only [valuesAtoms, List.forall_mem_append] at h
    exact .cons (value.readsBack hstate h.1) (readsBackValues values hstate h.2)

theorem readsBackEntries (entries : List (Text × Value)) {state : DumpFormatState}
    (hstate : state.Blank) (h : ∀ a ∈ entriesAtoms entries, a.Readable) :
    List.Forall₂ (ReadsBack (mapEntry parseValue)) (dumpEntries named state entries)
      (rereadEntries entries) := by
  match entries with
  | [] => exact .nil
  | (key, value) :: entries =>
    simp only [entriesAtoms, List.forall_mem_cons, List.forall_mem_append] at h
    exact .cons (readsBack_entry h.1 (value.readsBack hstate h.2.1))
      (readsBackEntries entries hstate h.2.2)

end

end Reading

end Memoria.Sdn

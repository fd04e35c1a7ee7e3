import Memoria.Proof.SdnTokens

namespace Memoria.Sdn

open Peg

/-! What the grammar reads from a dumped text: the value itself, but for the references to named
types that are written without their mark. -/

def ReadsBack {α : Type} (item : Parser Char α) (text : Text) (value : α) : Prop :=
  ∀ blanks rest, Blank blanks → Follow rest → item (blanks ++ (text ++ rest)) = some (value, rest)

section Items

variable {α : Type} {item : Parser Char α} {state : DumpFormatState} {texts : List Text}
  {values : List α}

theorem dumpItems_cons (opening closing text : Text) :
    dumpItems state opening closing (text :: texts)
      = opening ++ ((state.nlStart ++ state.push.makeIndent ++ text)
          ++ (((texts.map (state.nlMiddle ++ state.push.makeIndent ++ ·)).flatMap (',' :: ·))
            ++ (state.nlEnd ++ state.makeIndent ++ closing))) := by
  simp only [dumpItems, List.flatMap_map, List.append_assoc]

theorem sepBy_dumpItems (hstate : state.Blank) {text : Text} {value : α} {closer : Char}
    (hcloser : closer ∈ closers) (hcomma : closer ≠ ',')
    (h : List.Forall₂ (ReadsBack item) (text :: texts) (value :: values)) (rest : Text) :
    sepBy (token [',']) item ((state.nlStart ++ state.push.makeIndent ++ text)
        ++ (((texts.map (state.nlMiddle ++ state.push.makeIndent ++ ·)).flatMap (',' :: ·))
          ++ (state.nlEnd ++ state.makeIndent ++ closer :: rest)))
      = some (value :: values, state.nlEnd ++ state.makeIndent ++ closer :: rest) := by
  have hindent := hstate.push.makeIndent
  have hblank := hstate.nlEnd.append hstate.makeIndent
  obtain ⟨hhead, htail⟩ := List.forall₂_cons.mp h
  apply sepBy_join Follow
  · exact fun rest => token_append (by decide) [] rest
  · exact fun rest => Follow.of_closer Blank.nil (by decide) rest
  · refine List.Forall₂.cons ?_ ?_
    · intro rest hrest
      rw [List.append_assoc]
      exact hhead _ rest (hstate.nlStart.append hindent) hrest
    · rw [List.forall₂_map_left_iff]
      refine htail.imp fun text value hread rest hrest => ?_
      rw [List.append_assoc]
      exact hread _ rest (hstate.nlMiddle.append hindent) hrest
  · exact Follow.of_closer hblank hcloser rest
  · rw [token_blank hblank]
    exact token_ne (isSpace_closer hcloser) hcomma.symm [] rest

theorem bracketed_dumpItems (hstate : state.Blank) (opener closer : Char)
    (hopener : isSpace opener = false) (hcloser : closer ∈ closers) (hcomma : closer ≠ ',')
    (h : List.Forall₂ (ReadsBack item) texts values) {rest : Text}
    (hrest : token [opener] rest = none) :
    opt (bracketed [opener] [closer] item) []
      (dumpItems state [opener] [closer] texts ++ rest) = (values, rest) := by
  cases h with
  | nil => simp [opt, bracketed, dumpItems, hrest]
  | cons hhead htail =>
    have hitems := sepBy_dumpItems hstate hcloser hcomma (.cons hhead htail) rest
    have hclose : token [closer] (state.nlEnd ++ state.makeIndent ++ closer :: rest)
        = some ((), rest) := by
      rw [token_blank (hstate.nlEnd.append hstate.makeIndent)]
      exact token_append (isSpace_closer hcloser) [] rest
    rw [dumpItems_cons]
    simp only [List.append_assoc, List.cons_append, List.nil_append] at hitems hclose ⊢
    have hopen := fun text => token_append hopener [] text
    simp only [List.cons_append, List.nil_append] at hopen
    simp only [opt, bracketed, hopen, hitems, hclose, Option.bind_eq_bind, Option.bind_some,
      Option.getD_some]
    rfl

theorem enclosed_dumpItems (hstate : state.Blank) (opener : Char) (opening : Text) (closer : Char)
    (hopener : isSpace opener = false) (hcloser : closer ∈ closers) (hcomma : closer ≠ ',')
    (h : List.Forall₂ (ReadsBack item) texts values) (hne : texts ≠ []) {blanks : Text}
    (hblanks : Blank blanks) (rest : Text) :
    enclosed (opener :: opening) [closer] item
      (blanks ++ (dumpItems state (opener :: opening) [closer] texts ++ rest))
      = some (values, rest) := by
  cases h with
  | nil => exact absurd rfl hne
  | cons hhead htail =>
    have hitems := sepBy_dumpItems hstate hcloser hcomma (.cons hhead htail) rest
    have hclose : token [closer] (state.nlEnd ++ state.makeIndent ++ closer :: rest)
        = some ((), rest) := by
      rw [token_blank (hstate.nlEnd.append hstate.makeIndent)]
      exact token_append (isSpace_closer hcloser) [] rest
    have hopen := fun text => token_append hopener opening text
    rw [dumpItems_cons, enclosed]
    simp only [List.append_assoc, List.cons_append, List.nil_append] at hitems hclose hopen ⊢
    simp only [token_blank hblanks, hopen, hitems, hclose, Option.bind_eq_bind, Option.bind_some]
    rfl

end Items

section Alternatives

variable {value : Parser Char Value} {declaration : Parser Char TypeDeclaration}

theorem sdnString_blank {blanks : Text} (h : Blank blanks) (text : Text) :
    sdnString (blanks ++ text) = sdnString text := by
  simp only [sdnString, quotedWith, skip_blank h]

theorem identifier_blank {blanks : Text} (h : Blank blanks) (text : Text) :
    identifier (blanks ++ text) = identifier text := by
  simp only [identifier, skip_blank h]

theorem typeDeclaration_blank {blanks : Text} (h : Blank blanks) (text : Text) :
    typeDeclaration value declaration (blanks ++ text)
      = typeDeclaration value declaration text := by
  simp only [typeDeclaration, identifier_blank h]

theorem sdnValue_blank {blanks : Text} (h : Blank blanks) (text : Text) :
    sdnValue value declaration (blanks ++ text) = sdnValue value declaration text := by
  simp only [sdnValue, sdnStringOrTypedValue, sdnString_blank h, strictDouble, longLong,
    skip_blank h, enclosed, token_blank h, typeDeclaration_blank h, typedValue, boolValue]

theorem parseValue_blank {blanks : Text} (h : Blank blanks) (text : Text) :
    parseValue (blanks ++ text) = parseValue text := by
  rw [parseValue_eq, parseValue_eq, sdnValue_blank h]

variable {c : Char} (hspace : isSpace c = false) (text : Text)

include hspace

theorem sdnStringOrTypedValue_eq_none (hsingle : c ≠ '\x27') (hdouble : c ≠ '\x22') :
    sdnStringOrTypedValue value declaration (c :: text) = none := by
  simp only [sdnStringOrTypedValue, sdnString, quotedWith, skip_cons hspace, if_neg hsingle,
    if_neg hdouble]
  rfl

theorem enclosed_eq_none {α : Type} {item : Parser Char α} {opener : Char} {opening closing : Text}
    (hne : opener ≠ c) : enclosed (opener :: opening) closing item (c :: text) = none := by
  simp only [enclosed, token_ne hspace hne]
  rfl

theorem typeDeclaration_eq_none (hstart : isIdentStart c = false) :
    typeDeclaration value declaration (c :: text) = none := by
  have hidentifier : identifier (c :: text) = none := by
    simp [identifier, identifierAt, skip_cons hspace, hstart]
  simp only [typeDeclaration, hidentifier]
  rfl

theorem typedValue_eq_none (hne : c ≠ '@') : typedValue value declaration (c :: text) = none := by
  simp only [typedValue, token_ne hspace hne.symm]
  rfl

end Alternatives

theorem Word.typeDeclaration_eq {name rest : Text} (h : Word name)
    (hrest : ∀ c ∈ rest.head?, isIdentPart c = false) (value : Parser Char Value)
    (declaration : Parser Char TypeDeclaration) :
    typeDeclaration value declaration (name ++ rest) = some
      (.mk name (opt (bracketed ['<'] ['>'] declaration) [] rest).1
        (opt (bracketed ['('] [')'] value) [] (opt (bracketed ['<'] ['>'] declaration) [] rest).2).1,
      (opt (bracketed ['('] [')'] value) [] (opt (bracketed ['<'] ['>'] declaration) [] rest).2).2) := by
  simp only [typeDeclaration, h.identifier_append hrest]
  rfl

section Kinds

variable {state : DumpFormatState}

theorem readsBack_null : ReadsBack parseValue ['n', 'u', 'l', 'l'] .null := by
  intro blanks rest hblanks _
  have hnan : behindReal ('n' :: 'u' :: 'l' :: 'l' :: rest) = none :=
    behindReal_eq_none (by decide) (by decide) (by decide) (by decide) rfl rfl
  have hdouble : strictDouble ('n' :: 'u' :: 'l' :: 'l' :: rest) = none := by
    rw [strictDouble, skip_cons (by decide), hnan]
    rfl
  have htoken := token_append (show isSpace 'n' = false by decide) ['u', 'l', 'l'] rest
  rw [parseValue_blank hblanks, parseValue_eq, sdnValue]
  simp only [List.cons_append, List.nil_append] at htoken ⊢
  rw [sdnStringOrTypedValue_eq_none (by decide) _ (by decide) (by decide), hdouble,
    longLong_eq_none (by decide) (by decide) (by decide) (by decide),
    enclosed_eq_none (by decide) _ (by decide), htoken]
  rfl

theorem readsBack_bigint (value : Int64) :
    ReadsBack parseValue (dumpBigint value) (.bigint value) := by
  intro blanks rest hblanks hrest
  obtain ⟨c, tail, htext, hspace, hsingle, hdouble⟩ := dumpBigint_cons value
  rw [parseValue_blank hblanks, parseValue_eq, sdnValue, strictDouble_dumpBigint value hrest,
    longLong_dumpBigint value hrest, htext, List.cons_append,
    sdnStringOrTypedValue_eq_none hspace _ hsingle hdouble]
  rfl

theorem readsBack_boolean (value : Bool) :
    ReadsBack parseValue (if value then ['t', 'r', 'u', 'e'] else ['f', 'a', 'l', 's', 'e'])
      (.boolean value) := by
  intro blanks rest hblanks _
  rw [parseValue_blank hblanks, parseValue_eq, sdnValue]
  cases value with
  | true =>
    have htoken := token_append (show isSpace 't' = false by decide) ['r', 'u', 'e'] rest
    have hidentifier : identifier ('t' :: 'r' :: 'u' :: 'e' :: rest) = none := by
      simp [identifier, identifierAt, skip_cons (show isSpace 't' = false by decide)]
    simp only [if_true, List.cons_append, List.nil_append] at htoken ⊢
    rw [sdnStringOrTypedValue_eq_none (by decide) _ (by decide) (by decide),
      strictDouble_eq_none (by decide) (by decide),
      longLong_eq_none (by decide) (by decide) (by decide) (by decide),
      enclosed_eq_none (by decide) _ (by decide), token_ne (by decide) (by decide),
      enclosed_eq_none (by decide) _ (by decide), typeDeclaration, hidentifier,
      typedValue_eq_none (by decide) _ (by decide), boolValue, htoken]
    rfl
  | false =>
    have htoken := token_append (show isSpace 'f' = false by decide) ['a', 'l', 's', 'e'] rest
    have hidentifier : identifier ('f' :: 'a' :: 'l' :: 's' :: 'e' :: rest) = none := by
      simp [identifier, identifierAt, skip_cons (show isSpace 'f' = false by decide)]
    simp only [Bool.false_eq_true, if_false, List.cons_append, List.nil_append] at htoken ⊢
    rw [sdnStringOrTypedValue_eq_none (by decide) _ (by decide) (by decide),
      strictDouble_eq_none (by decide) (by decide),
      longLong_eq_none (by decide) (by decide) (by decide) (by decide),
      enclosed_eq_none (by decide) _ (by decide), token_ne (by decide) (by decide),
      enclosed_eq_none (by decide) _ (by decide), typeDeclaration, hidentifier,
      typedValue_eq_none (by decide) _ (by decide), boolValue, htoken,
      token_ne (by decide) (by decide)]
    rfl

theorem readsBack_varchar {text : Text} (h : ¬EndsInBackslash text) :
    ReadsBack parseValue (dumpString text) (.varchar text) := by
  intro blanks rest hblanks hrest
  rw [parseValue_blank hblanks, parseValue_eq, sdnValue, sdnStringOrTypedValue,
    sdnString_dumpString h]
  simp only [Option.bind_eq_bind, Option.bind_some, typeSuffix, hrest.token_none (.inr (.inr rfl)),
    Option.bind_none]
  rfl

/-- A string with a type behind it. -/
theorem readsBack_typed_varchar {text type : Text} {read : Text ⊕ TypeDeclaration}
    (h : ¬EndsInBackslash text)
    (htype : ReadsBack (typeDeclOrReference parseValue parseDeclaration) type read) :
    ReadsBack parseValue (dumpString text ++ '@' :: type) (ofType read (.varchar text)) := by
  intro blanks rest hblanks hrest
  have hat := token_append (show isSpace '@' = false by decide) [] (type ++ rest)
  have hread := htype [] rest Blank.nil hrest
  simp only [List.cons_append, List.nil_append] at hat hread
  rw [parseValue_blank hblanks, parseValue_eq, sdnValue, sdnStringOrTypedValue, List.append_assoc,
    sdnString_dumpString h]
  simp only [List.cons_append, Option.bind_eq_bind, Option.bind_some, typeSuffix, hat, hread]
  rfl

/-- A type before any other value. -/
theorem readsBack_typed {type text : Text} {read : Text ⊕ TypeDeclaration} {constructor : Value}
    (htype : ReadsBack (typeDeclOrReference parseValue parseDeclaration) type read)
    (hconstructor : ReadsBack parseValue text constructor) :
    ReadsBack parseValue ('@' :: type ++ [' ', '=', ' '] ++ text) (ofType read constructor) := by
  intro blanks rest hblanks hrest
  have hspace : Blank [' '] := by simp [Blank, isSpace]
  have hat := token_append (show isSpace '@' = false by decide) []
    (type ++ (' ' :: '=' :: ' ' :: (text ++ rest)))
  have hread := htype [] (' ' :: '=' :: ' ' :: (text ++ rest)) Blank.nil
    (Follow.of_closer hspace (by decide) _)
  have hequals : token ['='] (' ' :: '=' :: ' ' :: (text ++ rest))
      = some ((), ' ' :: (text ++ rest)) :=
    (token_blank hspace ['='] ('=' :: ' ' :: (text ++ rest))).trans
      (token_append (show isSpace '=' = false by decide) [] _)
  have htext := hconstructor [' '] rest hspace hrest
  simp only [List.cons_append, List.nil_append, List.append_assoc] at hat hread htext ⊢
  rw [parseValue_blank hblanks, parseValue_eq, sdnValue,
    sdnStringOrTypedValue_eq_none (by decide) _ (by decide) (by decide),
    strictDouble_eq_none (by decide) (by decide),
    longLong_eq_none (by decide) (by decide) (by decide) (by decide),
    enclosed_eq_none (by decide) _ (by decide), token_ne (by decide) (by decide),
    enclosed_eq_none (by decide) _ (by decide), typeDeclaration_eq_none (by decide) _ (by decide),
    typedValue]
  simp only [Option.bind_eq_bind, hat, hread, hequals, htext, Option.bind_some]
  rfl

theorem readsBack_declaration {name : Text} (hname : Word name) (hstate : state.Blank)
    {params args : List Text} {decls : List TypeDeclaration} {values : List Value}
    (hparams : List.Forall₂ (ReadsBack parseDeclaration) params decls)
    (hargs : List.Forall₂ (ReadsBack parseValue) args values) :
    ReadsBack (typeDeclaration parseValue parseDeclaration)
      (name ++ dumpItems state ['<'] ['>'] params ++ dumpItems state ['('] [')'] args)
      (.mk name decls values) := by
  intro blanks rest hblanks hrest
  have hround : token ['<'] (dumpItems state ['('] [')'] args ++ rest) = none := by
    cases args with
    | nil => exact hrest.token_none (.inl rfl)
    | cons arg args => exact token_ne (by decide) (by decide) [] _
  have hhead : ∀ c ∈ (dumpItems state ['<'] ['>'] params
      ++ (dumpItems state ['('] [')'] args ++ rest)).head?, isIdentPart c = false := by
    cases params with
    | nil =>
      cases args with
      | nil => exact fun c hc => (hrest.head c hc).1
      | cons arg args =>
        rintro c hc
        cases Option.mem_some.mp hc
        decide
    | cons param params =>
      rintro c hc
      cases Option.mem_some.mp hc
      decide
  have hangles := bracketed_dumpItems hstate '<' '>' (by decide) (by decide) (by decide) hparams hround
  have hrounds := bracketed_dumpItems hstate '(' ')' (by decide) (by decide) (by decide) hargs
    (hrest.token_none (.inr (.inl rfl)))
  rw [typeDeclaration_blank hblanks, List.append_assoc, List.append_assoc,
    hname.typeDeclaration_eq hhead, hangles, hrounds]

theorem readsBack_typeDecl {name : Text} (hname : Word name) (hreal : startsReal name = false)
    {tail : Text} (htail : ∀ c ∈ tail.head?, isIdentPart c = false) {decl : TypeDeclaration}
    (h : ReadsBack (typeDeclaration parseValue parseDeclaration) (name ++ tail) decl) :
    ReadsBack parseValue (name ++ tail) (.typeDecl decl) := by
  intro blanks rest hblanks hrest
  have hread := h [] rest Blank.nil hrest
  have hhead : ∀ c ∈ (tail ++ rest).head?, isIdentPart c = false := by
    cases tail with
    | nil => exact fun c hc => (hrest.head c hc).1
    | cons d tail => exact htail
  have hdouble := hname.strictDouble_append hreal hhead
  obtain ⟨c, name', rfl, hstart, -, hnull, -⟩ := hname.cases
  have hspace := isSpace_of_isIdentPart (isIdentPart_of_isIdentStart hstart)
  have hword : ¬['n', 'u', 'l', 'l'] <+: c :: (name' ++ (tail ++ rest)) :=
    fun hword => hnull (prefix_of_prefix_append (by simp [isIdentPart]) hhead hword)
  rw [parseValue_blank hblanks, parseValue_eq, sdnValue]
  simp only [List.cons_append, List.nil_append, List.append_assoc] at hread hdouble ⊢
  rw [sdnStringOrTypedValue_eq_none hspace _ (ne_of_isIdentStart hstart rfl)
      (ne_of_isIdentStart hstart rfl), hdouble,
    longLong_eq_none hspace (ne_of_isIdentStart hstart rfl) (ne_of_isIdentStart hstart rfl)
      (isDigit_of_isIdentStart hstart),
    enclosed_eq_none hspace _ (ne_of_isIdentStart hstart rfl).symm,
    token_eq_none (skip_cons hspace _) hword,
    enclosed_eq_none hspace _ (ne_of_isIdentStart hstart rfl).symm, hread]
  rfl

theorem readsBack_array (hstate : state.Blank) {texts : List Text} {values : List Value}
    (hne : texts ≠ []) (h : List.Forall₂ (ReadsBack parseValue) texts values) :
    ReadsBack parseValue (dumpItems state ['['] [']'] texts) (.array values) := by
  intro blanks rest hblanks _
  have hread := enclosed_dumpItems hstate '[' [] ']' (by decide) (by decide) (by decide) h hne
    Blank.nil rest
  obtain ⟨text, others, rfl⟩ := List.exists_cons_of_ne_nil hne
  rw [parseValue_blank hblanks, parseValue_eq, sdnValue]
  rw [dumpItems_cons] at hread ⊢
  simp only [List.cons_append, List.nil_append, List.append_assoc] at hread ⊢
  rw [sdnStringOrTypedValue_eq_none (by decide) _ (by decide) (by decide),
    strictDouble_eq_none (by decide) (by decide),
    longLong_eq_none (by decide) (by decide) (by decide) (by decide),
    enclosed_eq_none (by decide) _ (by decide), token_ne (by decide) (by decide), hread]
  rfl

theorem readsBack_array_nil : ReadsBack parseValue ['[', ']'] (.array []) := by
  intro blanks rest hblanks _
  have hopen := token_append (show isSpace '[' = false by decide) [] (']' :: rest)
  have hclose := token_append (show isSpace ']' = false by decide) [] rest
  have hnone : parseValue (']' :: rest) = none := by
    rw [parseValue_eq, sdnValue,
      sdnStringOrTypedValue_eq_none (by decide) _ (by decide) (by decide),
      strictDouble_eq_none (by decide) (by decide),
      longLong_eq_none (by decide) (by decide) (by decide) (by decide),
      enclosed_eq_none (by decide) _ (by decide), token_ne (by decide) (by decide),
      enclosed_eq_none (by decide) _ (by decide),
      typeDeclaration_eq_none (by decide) _ (by decide),
      typedValue_eq_none (by decide) _ (by decide), boolValue, token_ne (by decide) (by decide),
      token_ne (by decide) (by decide)]
    rfl
  simp only [List.cons_append, List.nil_append] at hopen hclose ⊢
  have hread : enclosed ['['] [']'] parseValue ('[' :: ']' :: rest) = some ([], rest) := by
    simp only [enclosed, hopen, hclose, sepBy, hnone, Option.bind_eq_bind, Option.bind_some,
      Option.bind_none]
    rfl
  rw [parseValue_blank hblanks, parseValue_eq, sdnValue,
    sdnStringOrTypedValue_eq_none (by decide) _ (by decide) (by decide),
    strictDouble_eq_none (by decide) (by decide),
    longLong_eq_none (by decide) (by decide) (by decide) (by decide),
    enclosed_eq_none (by decide) _ (by decide), token_ne (by decide) (by decide), hread]
  rfl

theorem readsBack_map_nil : ReadsBack parseValue ['{', '}'] (.map []) := by
  intro blanks rest hblanks _
  have hopen := token_append (show isSpace '{' = false by decide) [] ('}' :: rest)
  have hclose := token_append (show isSpace '}' = false by decide) [] rest
  have hnone : mapEntry parseValue ('}' :: rest) = none := by
    simp [mapEntry, sdnString, quotedWith, skip_cons (show isSpace '}' = false by decide)]
  simp only [List.cons_append, List.nil_append] at hopen hclose ⊢
  have hread : enclosed ['{'] ['}'] (mapEntry parseValue) ('{' :: '}' :: rest)
      = some ([], rest) := by
    simp only [enclosed, hopen, hclose, sepBy, hnone, Option.bind_eq_bind, Option.bind_some,
      Option.bind_none]
    rfl
  rw [parseValue_blank hblanks, parseValue_eq, sdnValue,
    sdnStringOrTypedValue_eq_none (by decide) _ (by decide) (by decide),
    strictDouble_eq_none (by decide) (by decide),
    longLong_eq_none (by decide) (by decide) (by decide) (by decide), hread]
  rfl

theorem readsBack_map (hstate : state.Blank) {texts : List Text} {entries : List (Text × Value)}
    (hne : texts ≠ []) (h : List.Forall₂ (ReadsBack (mapEntry parseValue)) texts entries) :
    ReadsBack parseValue (dumpItems state ['{'] ['}'] texts) (.map (putAll entries)) := by
  intro blanks rest hblanks _
  have hread := enclosed_dumpItems hstate '{' [] '}' (by decide) (by decide) (by decide) h hne
    Blank.nil rest
  obtain ⟨text, others, rfl⟩ := List.exists_cons_of_ne_nil hne
  rw [parseValue_blank hblanks, parseValue_eq, sdnValue]
  rw [dumpItems_cons] at hread ⊢
  simp only [List.cons_append, List.nil_append, List.append_assoc] at hread ⊢
  rw [sdnStringOrTypedValue_eq_none (by decide) _ (by decide) (by decide),
    strictDouble_eq_none (by decide) (by decide),
    longLong_eq_none (by decide) (by decide) (by decide) (by decide), hread]
  rfl

theorem readsBack_entry {key text : Text} {value : Value} (hkey : ¬EndsInBackslash key)
    (h : ReadsBack parseValue text value) :
    ReadsBack (mapEntry parseValue) (dumpString key ++ [':', ' '] ++ text) (key, value) := by
  intro blanks rest hblanks hrest
  have hspace : Blank [' '] := by simp [Blank, isSpace]
  have hcolon := token_append (show isSpace ':' = false by decide) [] (' ' :: (text ++ rest))
  have htext := h [' '] rest hspace hrest
  simp only [List.cons_append, List.nil_append, List.append_assoc] at hcolon htext ⊢
  rw [mapEntry, sdnString_blank hblanks, sdnString_dumpString hkey]
  simp only [Option.bind_eq_bind, Option.bind_some, hcolon, htext]
  rfl

end Kinds

end Memoria.Sdn

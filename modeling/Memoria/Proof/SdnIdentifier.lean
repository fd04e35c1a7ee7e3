import Memoria.Proof.SdnSpelled

namespace Memoria.Sdn

open Peg

/-! Names and what the three ways of reading one make of it. A name is left out of the identifiers
as soon as it starts with one of the three words, and the number rule, which comes first among the
values, takes the letters of `nan` and `inf`. -/

structure IsName (name : Text) : Prop where
  spelled : ∃ c tail, name = c :: tail ∧ isIdentStart c = true ∧ ∀ d ∈ tail, isIdentPart d = true
  ne_null : name ≠ ['n', 'u', 'l', 'l']
  ne_true : name ≠ ['t', 'r', 'u', 'e']
  ne_false : name ≠ ['f', 'a', 'l', 's', 'e']

def Surrounds (text name : Text) : Prop :=
  ∃ left right, Blank left ∧ Blank right ∧ text = left ++ (name ++ right)

def StartsWord (name : Text) : Prop :=
  ['n', 'u', 'l', 'l'] <+: name ∨ ['t', 'r', 'u', 'e'] <+: name ∨
    ['f', 'a', 'l', 's', 'e'] <+: name

def typeNamed (name : Text) : Document :=
  ⟨none, .typeDecl (.mk name [] [])⟩

structure NameRead (registered : Text → Bool) (text : Text) : Prop where
  isIdentifier_iff : isIdentifier text = true ↔ ∃ name, IsName name ∧ Surrounds text name
  parse_eq : ∀ name, IsName name → Surrounds text name →
    parse registered text = some (typeNamed name)
  parseTypeDecl_eq : ∀ name, IsName name → Surrounds text name →
    parseTypeDecl registered text = some (typeNamed name)

theorem IsName.word {name : Text} (h : IsName name) (hword : ¬ StartsWord name) : Word name := by
  obtain ⟨c, tail, rfl, hstart, htail⟩ := h.spelled
  unfold StartsWord at hword
  have hparts : tail.takeWhile isIdentPart = tail ∧ tail.dropWhile isIdentPart = [] :=
    ⟨List.takeWhile_eq_self_iff.mpr htail, List.dropWhile_eq_nil_iff.mpr htail⟩
  simp only [Word, identifierAt, if_neg hword, if_pos hstart, hparts]

theorem Word.isName {name : Text} (h : Word name) : IsName name := by
  obtain ⟨c, tail, hname, hstart, hparts, hnull, htrue, hfalse⟩ := h.cases
  refine ⟨⟨c, tail, hname, hstart, ?_⟩, ?_, ?_, ?_⟩
  · intro d hd
    apply hparts
    rw [hname]
    exact List.mem_cons_of_mem c hd
  · rintro rfl
    exact hnull (List.prefix_refl _)
  · rintro rfl
    exact htrue (List.prefix_refl _)
  · rintro rfl
    exact hfalse (List.prefix_refl _)

theorem Follow.of_blank {blanks : Text} (h : Blank blanks) : Follow blanks := by
  constructor
  · intro c hc
    have hspace := h c (List.mem_of_mem_head? hc)
    exact ⟨isIdentPart_of_isSpace hspace, ne_dot_of_isSpace hspace⟩
  · rw [h.skip_eq_nil]
    exact fun c hc => nomatch hc

theorem isIdentifier_of_word {name left right : Text} (h : Word name) (hleft : Blank left)
    (hright : Blank right) : isIdentifier (left ++ (name ++ right)) = true := by
  have hstop : ∀ c ∈ right.head?, isIdentPart c = false :=
    fun c hc => isIdentPart_of_isSpace (hright c (List.mem_of_mem_head? hc))
  rw [isIdentifier, identifier_blank hleft, h.identifier_append hstop]
  change (skip right).isEmpty = true
  rw [hright.skip_eq_nil]
  rfl

theorem exists_word_of_isIdentifier {text : Text} (h : isIdentifier text = true) :
    ∃ name, Word name ∧ Surrounds text name := by
  unfold isIdentifier at h
  cases hread : identifier text with
  | none =>
    rw [hread] at h
    cases h
  | some read =>
    obtain ⟨name, rest⟩ := read
    rw [hread] at h
    have hblank : Blank rest := List.dropWhile_eq_nil_iff.mp (List.isEmpty_iff.mp h)
    obtain ⟨c, tail, htext, hstart, hname, hrest, hnull, htrue, hfalse⟩ :=
      identifierAt_eq_some hread
    have hsplit : skip text = name ++ rest := by
      rw [htext, hname, hrest, List.cons_append, List.takeWhile_append_dropWhile]
    rw [hsplit] at hnull htrue hfalse
    refine ⟨name, ?_, text.takeWhile isSpace, rest, ?_, hblank, ?_⟩
    · -- A word at the start of the name would be one at the start of the text.
      have hword : ¬ StartsWord name := by
        rintro (hword | hword | hword)
        · exact hnull (hword.trans (List.prefix_append _ _))
        · exact htrue (hword.trans (List.prefix_append _ _))
        · exact hfalse (hword.trans (List.prefix_append _ _))
      have hparts : ∀ d ∈ tail.takeWhile isIdentPart, isIdentPart d = true :=
        fun d hd => List.mem_takeWhile_imp hd
      rw [hname] at hword ⊢
      unfold StartsWord at hword
      simp only [Word, identifierAt, if_neg hword, if_pos hstart,
        List.takeWhile_eq_self_iff.mpr hparts, List.dropWhile_eq_nil_iff.mpr hparts]
    · exact fun d hd => List.mem_takeWhile_imp hd
    · rw [← hsplit]
      exact (List.takeWhile_append_dropWhile).symm

theorem isIdentifier_of_startsWord {name left right : Text} (hname : IsName name)
    (hword : StartsWord name) (hleft : Blank left) :
    isIdentifier (left ++ (name ++ right)) = false := by
  obtain ⟨c, tail, rfl, hstart, -⟩ := hname.spelled
  have hspace := isSpace_of_isIdentPart (isIdentPart_of_isIdentStart hstart)
  have htext : ['n', 'u', 'l', 'l'] <+: c :: tail ++ right ∨
      ['t', 'r', 'u', 'e'] <+: c :: tail ++ right ∨
        ['f', 'a', 'l', 's', 'e'] <+: c :: tail ++ right := by
    rcases hword with hword | hword | hword
    · exact .inl (hword.trans (List.prefix_append _ _))
    · exact .inr (.inl (hword.trans (List.prefix_append _ _)))
    · exact .inr (.inr (hword.trans (List.prefix_append _ _)))
  have hnone : identifier (left ++ (c :: tail ++ right)) = none := by
    rw [identifier_blank hleft, identifier, List.cons_append, skip_cons hspace]
    exact if_pos htext
  rw [isIdentifier, hnone]

theorem behindNan_eq {text rest : Text} (h : behindWord ['n', 'a', 'n'] text = some rest)
    (hround : rest.head? ≠ some '(') : behindNan text = some rest := by
  rw [behindNan, h]
  simp only [Option.bind_eq_bind, Option.bind_some]
  split
  · exact absurd rfl hround
  · rfl

/-- No bracket stands in a name or behind it, so that `nan` has no part in brackets. -/
theorem behindReal_of_startsReal {c : Char} {tail right : Text} (hstart : isIdentStart c = true)
    (hparts : ∀ d ∈ c :: tail, isIdentPart d = true) (hright : Blank right)
    (hreal : startsReal (c :: tail) = true) : ∃ rest, behindReal (c :: tail ++ right) = some rest := by
  have hspecial : ∃ rest, (behindNan (c :: tail ++ right)).or (behindInf (c :: tail ++ right)) =
      some rest := by
    cases hnan : behindWord ['n', 'a', 'n'] (c :: tail) with
    | some rest =>
      have hround : (rest ++ right).head? ≠ some '(' := by
        intro hround
        rcases List.mem_append.mp (List.mem_of_mem_head? hround) with hname | hblank
        · have hpart := hparts _ ((behindWord_suffix hnan).1.subset hname)
          exact absurd hpart (by decide)
        · exact absurd (hright _ hblank) (by decide)
      refine ⟨rest ++ right, ?_⟩
      rw [behindNan_eq (behindWord_append hnan right) hround]
      rfl
    | none =>
      rw [startsReal, hnan] at hreal
      obtain ⟨rest, hinf⟩ := Option.isSome_iff_exists.mp hreal
      rw [behindInf, behindWord_append hinf]
      cases behindNan (c :: tail ++ right) with
      | none => exact ⟨_, rfl⟩
      | some rest' => exact ⟨rest', rfl⟩
  obtain ⟨rest, hrest⟩ := hspecial
  refine ⟨rest, ?_⟩
  rw [List.cons_append] at hrest ⊢
  simp only [behindReal, dropSign_cons (ne_of_isIdentStart hstart rfl : c ≠ '+')
    (ne_of_isIdentStart hstart rfl), List.takeWhile_cons, isDigit_of_isIdentStart hstart]
  simp [hrest]

section Reading

variable (registered : Text → Bool) {name left right : Text} (hword : Word name)
  (hleft : Blank left) (hright : Blank right)

include hword

theorem readsBack_word : ReadsBack (typeDeclaration parseValue parseDeclaration) name
    (.mk name [] []) := by
  have hread : ReadsBack (typeDeclaration parseValue parseDeclaration)
      (name ++ dumpItems .simple ['<'] ['>'] [] ++ dumpItems .simple ['('] [')'] [])
      (.mk name [] []) :=
    readsBack_declaration hword DumpFormatState.blank_simple .nil .nil
  simpa only [dumpItems, List.append_nil] using hread

theorem typeDirectory_of_word : typeDirectory (name ++ right) = none := by
  obtain ⟨c, tail, rfl, hstart, -⟩ := hword.cases
  have hspace := isSpace_of_isIdentPart (isIdentPart_of_isIdentStart hstart)
  exact enclosed_eq_none hspace _ (ne_of_isIdentStart hstart rfl).symm

include hleft

theorem typeDirectory_blank : opt typeDirectory [] (left ++ (name ++ right)) =
    ([], left ++ (name ++ right)) := by
  have hbare : typeDirectory (name ++ right) = none := typeDirectory_of_word hword
  have hnone : typeDirectory (left ++ (name ++ right)) = none := by
    rw [← hbare, typeDirectory, enclosed, enclosed, token_blank hleft]
  rw [opt, hnone]
  rfl

/-- The document that is made of a value read from the whole text. -/
theorem parse_of_parseValue {value : Value} {rest : Text}
    (hvalue : parseValue (left ++ (name ++ right)) = some (value, rest)) :
    parse registered (left ++ (name ++ right)) =
      if (skip rest).isEmpty then (value.build registered []).map fun value => ⟨none, value⟩
      else none := by
  rw [parse, typeDirectory_blank hword hleft]
  simp only [hvalue, Option.bind_eq_bind, Option.bind_some]
  split
  · change ((value.build registered []).bind fun value => some (Document.mk none value)) = _
    cases value.build registered [] with
    | none => rfl
    | some value => rfl
  · rfl

include hright

theorem parseTypeDecl_of_word :
    parseTypeDecl registered (left ++ (name ++ right)) = some (typeNamed name) := by
  have hread := readsBack_word hword left right hleft (Follow.of_blank hright)
  rw [parseTypeDecl, parseDeclaration_eq, hread]
  simp only [Option.bind_eq_bind, Option.bind_some, hright.skip_eq_nil]
  rfl

theorem parse_of_word (hreal : startsReal name = false) :
    parse registered (left ++ (name ++ right)) = some (typeNamed name) := by
  have hdecl : ReadsBack (typeDeclaration parseValue parseDeclaration) (name ++ [])
      (.mk name [] []) := by
    rw [List.append_nil]
    exact readsBack_word hword
  have hread := readsBack_typeDecl hword hreal (by simp) hdecl left right hleft
    (Follow.of_blank hright)
  rw [List.append_nil] at hread
  rw [parse_of_parseValue registered hword hleft hread, hright.skip_eq_nil]
  rfl

/-- Where the name starts with `nan` or `inf`, a number is read. -/
theorem parseValue_of_startsReal (hreal : startsReal name = true) :
    ∃ literal rest, parseValue (left ++ (name ++ right)) = some (.double literal, rest) := by
  obtain ⟨c, tail, rfl, hstart, hparts, -⟩ := hword.cases
  have hspace := isSpace_of_isIdentPart (isIdentPart_of_isIdentStart hstart)
  obtain ⟨rest, hrest⟩ := behindReal_of_startsReal hstart hparts hright hreal
  rw [parseValue_blank hleft, parseValue_eq, sdnValue, List.cons_append,
    sdnStringOrTypedValue_eq_none hspace _ (ne_of_isIdentStart hstart rfl)
      (ne_of_isIdentStart hstart rfl), strictDouble, skip_cons hspace, ← List.cons_append, hrest]
  exact ⟨_, _, rfl⟩

theorem parse_ne_of_startsReal (hreal : startsReal name = true) :
    parse registered (left ++ (name ++ right)) ≠ some (typeNamed name) := by
  obtain ⟨literal, rest, hvalue⟩ := parseValue_of_startsReal hword hleft hright hreal
  rw [parse_of_parseValue registered hword hleft hvalue]
  split
  · intro h
    cases h
  · exact fun h => nomatch h

end Reading

/-- A text is read as it should be exactly if it is not a name that starts with one of the words, or
with `nan` or `inf` in any case of the letters. -/
theorem nameRead_iff (registered : Text → Bool) (text : Text) :
    NameRead registered text ↔ ∀ name, IsName name → Surrounds text name →
      ¬ StartsWord name ∧ startsReal name = false := by
  constructor
  · rintro h name hname ⟨left, right, hleft, hright, rfl⟩
    have hsurrounds : Surrounds (left ++ (name ++ right)) name :=
      ⟨left, right, hleft, hright, rfl⟩
    have hstarts : ¬ StartsWord name := by
      intro hstarts
      have hidentifier := h.isIdentifier_iff.mpr ⟨name, hname, hsurrounds⟩
      rw [isIdentifier_of_startsWord hname hstarts hleft] at hidentifier
      cases hidentifier
    refine ⟨hstarts, ?_⟩
    by_contra hreal
    exact parse_ne_of_startsReal registered (hname.word hstarts) hleft hright
      (by simpa using hreal) (h.parse_eq name hname hsurrounds)
  · intro h
    refine ⟨⟨?_, ?_⟩, ?_, ?_⟩
    · intro hidentifier
      obtain ⟨name, hword, hsurrounds⟩ := exists_word_of_isIdentifier hidentifier
      exact ⟨name, hword.isName, hsurrounds⟩
    · rintro ⟨name, hname, hsurrounds⟩
      have hword := hname.word (h name hname hsurrounds).1
      obtain ⟨left, right, hleft, hright, rfl⟩ := hsurrounds
      exact isIdentifier_of_word hword hleft hright
    · rintro name hname hsurrounds
      obtain ⟨hstarts, hreal⟩ := h name hname hsurrounds
      obtain ⟨left, right, hleft, hright, rfl⟩ := hsurrounds
      exact parse_of_word registered (hname.word hstarts) hleft hright hreal
    · rintro name hname hsurrounds
      have hword := hname.word (h name hname hsurrounds).1
      obtain ⟨left, right, hleft, hright, rfl⟩ := hsurrounds
      exact parseTypeDecl_of_word registered hword hleft hright

/-- No identifier starts with `null`. -/
theorem nullable_refused : ¬ ∀ text : Text, NameRead (fun _ => false) text := by
  intro h
  have hname : IsName ['n', 'u', 'l', 'l', 'a', 'b', 'l', 'e'] :=
    ⟨⟨'n', ['u', 'l', 'l', 'a', 'b', 'l', 'e'], rfl, rfl, by simp [isIdentPart]⟩,
      by simp, by simp, by simp⟩
  have hidentifier := (h ['n', 'u', 'l', 'l', 'a', 'b', 'l', 'e']).isIdentifier_iff.mpr
    ⟨_, hname, [], [], Blank.nil, Blank.nil, rfl⟩
  have hrefused : isIdentifier ([] ++ (['n', 'u', 'l', 'l', 'a', 'b', 'l', 'e'] ++ [])) = false :=
    isIdentifier_of_startsWord hname (.inl ⟨['a', 'b', 'l', 'e'], rfl⟩) Blank.nil
  exact Bool.false_ne_true (hrefused.symm.trans hidentifier)

end Memoria.Sdn

import Memoria.Proof.SdnValues

namespace Memoria.Sdn

open Peg

/-! The values that the grammar gives: which strings and names never come out of it. -/

def Atom.Spelled : Atom → Prop
  | .text s => ¬EndsInBackslash s
  | .name s => Trimmed s
  | .standing s => startsReal s = false
  | _ => True

def Value.Spelled (value : Value) : Prop := ∀ a ∈ value.atoms, a.Spelled

def TypeDeclaration.Spelled (decl : TypeDeclaration) : Prop := ∀ a ∈ decl.atoms, a.Spelled

/-- `nan` before a bracket that is never closed is left unread, and nothing can read on. -/
def Stuck (text : Text) : Prop := text.head? = some '('

theorem mem_declsAtoms {a : Atom} {decls : List TypeDeclaration} :
    a ∈ declsAtoms decls ↔ ∃ decl ∈ decls, a ∈ decl.atoms := by
  induction decls with
  | nil => simp [declsAtoms]
  | cons decl decls ih => simp [declsAtoms, ih]

theorem mem_valuesAtoms {a : Atom} {values : List Value} :
    a ∈ valuesAtoms values ↔ ∃ value ∈ values, a ∈ value.atoms := by
  induction values with
  | nil => simp [valuesAtoms]
  | cons value values ih => simp [valuesAtoms, ih]

theorem mem_entriesAtoms {a : Atom} {entries : List (Text × Value)} :
    a ∈ entriesAtoms entries ↔ ∃ e ∈ entries, a = .text e.1 ∨ a ∈ e.2.atoms := by
  induction entries with
  | nil => simp [entriesAtoms]
  | cons entry entries ih => simp [entriesAtoms, ih, or_assoc]

theorem mem_put {α : Type} {entries : List (Text × α)} {key : Text} {value : α}
    {e : Text × α} (h : e ∈ put entries key value) : e ∈ entries ∨ e = (key, value) := by
  unfold put at h
  split_ifs at h
  · obtain ⟨e', he', heq⟩ := List.mem_map.mp h
    split_ifs at heq
    · exact .inr heq.symm
    · exact .inl (heq ▸ he')
  · simpa using h

theorem mem_putAll {α : Type} {entries : List (Text × α)} {e : Text × α}
    (h : e ∈ putAll entries) : e ∈ entries := by
  have hfold : ∀ done : List (Text × α),
      e ∈ entries.foldl (fun done e => put done e.1 e.2) done → e ∈ done ∨ e ∈ entries := by
    clear h
    induction entries with
    | nil => exact fun done h => .inl h
    | cons entry entries ih =>
      intro done h
      obtain h | h := ih _ h
      · obtain h | h := mem_put h
        · exact .inl h
        · exact .inr (by rw [h]; exact List.mem_cons_self)
      · exact .inr (List.mem_cons_of_mem _ h)
  simpa using hfold [] h

theorem token_stuck {c : Char} (hc : c ≠ '(') (word : Text) {text : Text} (h : Stuck text) :
    token (c :: word) text = none := by
  cases text with
  | nil => cases h
  | cons d text =>
    cases h
    exact token_ne (by decide) hc word text

section Items

variable {α : Type} {item : Parser Char α} {property : α → Prop}
  (hitem : ∀ text value rest, item text = some (value, rest) → property value ∨ Stuck rest)

include hitem

theorem sepBy_property {text rest : Text} {items : List α}
    (h : sepBy (token [',']) item text = some (items, rest)) :
    (∀ value ∈ items, property value) ∨ Stuck rest :=
  sepBy_forall hitem (fun _ => token_stuck (by decide) []) h

theorem bracketed_property {opening text rest : Text} {closer : Char} (hcloser : closer ≠ '(')
    {items : List α} (h : bracketed opening [closer] item text = some (items, rest)) :
    ∀ value ∈ items, property value := by
  simp only [bracketed, Option.bind_eq_bind, Option.bind_eq_some_iff] at h
  obtain ⟨⟨_, inner⟩, -, ⟨_, behind⟩, hclose, heq⟩ := h
  cases heq
  simp only [opt] at hclose ⊢
  cases hitems : sepBy (token [',']) item inner with
  | none => exact fun value hvalue => absurd hvalue List.not_mem_nil
  | some read =>
    rw [hitems] at hclose
    obtain hall | hstuck := sepBy_property hitem hitems
    · exact hall
    · rw [Option.getD_some, token_stuck hcloser [] hstuck] at hclose
      cases hclose

theorem enclosed_property {opening text rest : Text} {closer : Char} (hcloser : closer ≠ '(')
    {items : List α} (h : enclosed opening [closer] item text = some (items, rest)) :
    ∀ value ∈ items, property value := by
  obtain h | ⟨-, h⟩ := Option.or_eq_some_iff.mp h
  · simp only [Option.bind_eq_bind, Option.bind_eq_some_iff] at h
    obtain ⟨⟨_, inner⟩, -, ⟨read, behind⟩, hitems, ⟨_, behind'⟩, hclose, heq⟩ := h
    cases heq
    obtain hall | hstuck := sepBy_property hitem hitems
    · exact hall
    · rw [token_stuck hcloser [] hstuck] at hclose
      cases hclose
  · simp only [Option.bind_eq_bind, Option.bind_eq_some_iff] at h
    obtain ⟨⟨_, inner⟩, -, ⟨_, behind⟩, -, heq⟩ := h
    cases heq
    exact fun value hvalue => nomatch hvalue

end Items

theorem behindWord_append {word name behind : Text} (h : behindWord word name = some behind)
    (rest : Text) : behindWord word (name ++ rest) = some (behind ++ rest) := by
  induction word generalizing name with
  | nil =>
    cases h
    rfl
  | cons w word ih =>
    cases name with
    | nil => cases h
    | cons c name =>
      simp only [behindWord, List.cons_append] at h ⊢
      split_ifs at h ⊢
      exact ih h

/-- A number is read where `nan` or `inf` stands, unless a bracket behind `nan` is not closed. -/
theorem behindReal_of_special {c : Char} (text : Text) (hstart : isIdentStart c = true)
    (h : behindReal (c :: text) = none) :
    behindNan (c :: text) = none ∧ behindInf (c :: text) = none := by
  have hplus : c ≠ '+' := ne_of_isIdentStart hstart rfl
  have hminus : c ≠ '-' := ne_of_isIdentStart hstart rfl
  cases hspecial : (behindNan (c :: text)).or (behindInf (c :: text)) with
  | none => exact Option.or_eq_none_iff.mp hspecial
  | some rest =>
    simp [behindReal, dropSign_cons hplus hminus, isDigit_of_isIdentStart hstart, hspecial] at h

/-- What can follow a type name that `strict_double` would have read. -/
theorem unclosed_of_startsReal {name rest : Text} (hword : ∀ c ∈ name, isIdentPart c = true)
    (hstart : ∀ c ∈ name.head?, isIdentStart c = true) (hreal : startsReal name = true)
    (h : behindReal (name ++ rest) = none) : ∃ inner, rest = '(' :: inner ∧ ')' ∉ inner := by
  cases name with
  | nil => cases hreal
  | cons c name =>
    have hspecial := behindReal_of_special (name ++ rest) (hstart c rfl) h
    obtain ⟨hnan, hinf⟩ := hspecial
    rw [← List.cons_append] at hnan hinf
    obtain hreal | hreal := Bool.or_eq_true_iff.mp hreal
    · obtain ⟨behind, hbehind⟩ := Option.isSome_iff_exists.mp hreal
      have hsuffix := (behindWord_suffix hbehind).1
      rw [behindNan, behindWord_append hbehind] at hnan
      simp only [Option.bind_eq_bind, Option.bind_some] at hnan
      split at hnan
      case h_1 inner heq =>
        cases behind with
        | nil =>
          refine ⟨inner, heq, ?_⟩
          split at hnan
          case h_1 => cases hnan
          case h_2 hdrop =>
            intro hmem
            have := List.dropWhile_eq_nil_iff.mp hdrop _ hmem
            simp at this
        | cons d behind =>
          cases heq
          exact absurd (hword '(' (hsuffix.subset List.mem_cons_self)) (by decide)
      case h_2 => cases hnan
    · obtain ⟨behind, hbehind⟩ := Option.isSome_iff_exists.mp hreal
      rw [behindInf, behindWord_append hbehind] at hinf
      cases hinf

theorem mem_of_token {c : Char} {text rest : Text} (h : token [c] text = some ((), rest)) :
    c ∈ text := by
  simp only [token, lit] at h
  split_ifs at h with hstart
  exact (List.dropWhile_suffix _).subset (hstart.subset List.mem_cons_self)

theorem mem_of_bracketed {α : Type} {item : Parser Char α} (hitem : Reads item) {opener closer : Char}
    {inner rest : Text} (hspace : isSpace opener = false) {items : List α}
    (h : bracketed [opener] [closer] item (opener :: inner) = some (items, rest)) :
    closer ∈ inner := by
  have hopen := token_append hspace [] inner
  simp only [List.cons_append, List.nil_append] at hopen
  simp only [bracketed, hopen, Option.bind_eq_bind, Option.bind_some,
    Option.bind_eq_some_iff] at h
  obtain ⟨⟨_, behind⟩, hclose, -⟩ := h
  exact (opt_suffix (sepBy_reads comma_reads hitem).within [] inner).subset (mem_of_token hclose)

section Rules

variable {value : Parser Char Value} {declaration : Parser Char TypeDeclaration}

theorem standing_spelled (hreads : Reads value) {text rest : Text} {decl : TypeDeclaration}
    (hdouble : strictDouble text = none)
    (h : typeDeclaration value declaration text = some (decl, rest)) :
    startsReal decl.name = false ∨ Stuck rest := by
  simp only [typeDeclaration, Option.bind_eq_bind, Option.bind_eq_some_iff] at h
  obtain ⟨⟨name, behind⟩, hname, heq⟩ := h
  have hreal : behindReal (skip text) = none := by simpa [strictDouble] using hdouble
  obtain ⟨c, tail, htext, hstart, rfl, rfl, -⟩ := identifierAt_eq_some hname
  have hsplit : skip text = (c :: tail.takeWhile isIdentPart) ++ tail.dropWhile isIdentPart := by
    rw [htext, List.cons_append, List.takeWhile_append_dropWhile]
  have hword : ∀ d ∈ c :: tail.takeWhile isIdentPart, isIdentPart d = true := by
    intro d hd
    obtain rfl | hd := List.mem_cons.mp hd
    · exact isIdentPart_of_isIdentStart hstart
    · exact List.mem_takeWhile_imp hd
  by_cases hstarts : startsReal (c :: tail.takeWhile isIdentPart) = true
  · refine .inr ?_
    obtain ⟨inner, hinner, hclosed⟩ := unclosed_of_startsReal hword
      (fun d hd => by cases Option.mem_some.mp hd; exact hstart) hstarts (hsplit ▸ hreal)
    have hangle : opt (bracketed ['<'] ['>'] declaration) [] ('(' :: inner)
        = ([], '(' :: inner) := by
      simp [opt, bracketed, token_ne (show isSpace '(' = false by decide) (show '<' ≠ '(' by decide)]
    have hround : opt (bracketed ['('] [')'] value) [] ('(' :: inner) = ([], '(' :: inner) := by
      cases hargs : bracketed ['('] [')'] value ('(' :: inner) with
      | none => simp [opt, hargs]
      | some read => exact absurd (mem_of_bracketed hreads (by decide) hargs) hclosed
    simp only [hinner, hangle, hround] at heq
    cases heq
    rfl
  · simp only at heq
    cases heq
    exact .inl (Bool.eq_false_iff.mpr hstarts)

variable (hvalue : ∀ text v rest, value text = some (v, rest) → v.Spelled ∨ Stuck rest)
  (hdeclaration : ∀ text decl rest, declaration text = some (decl, rest) → decl.Spelled)

include hvalue hdeclaration

theorem typeDeclaration_spelled {text rest : Text} {decl : TypeDeclaration}
    (h : typeDeclaration value declaration text = some (decl, rest)) : decl.Spelled := by
  simp only [typeDeclaration, Option.bind_eq_bind, Option.bind_eq_some_iff] at h
  obtain ⟨⟨name, behind⟩, hname, heq⟩ := h
  have hparams : ∀ param ∈ (opt (bracketed ['<'] ['>'] declaration) [] behind).1,
      param.Spelled := by
    unfold opt
    cases hrun : bracketed ['<'] ['>'] declaration behind with
    | none => exact fun param hparam => absurd hparam List.not_mem_nil
    | some read =>
      exact bracketed_property (fun text decl rest h => .inl (hdeclaration text decl rest h))
        (by decide) hrun
  have hargs : ∀ inner, ∀ arg ∈ (opt (bracketed ['('] [')'] value) [] inner).1,
      arg.Spelled := by
    intro inner
    unfold opt
    cases hrun : bracketed ['('] [')'] value inner with
    | none => exact fun arg harg => absurd harg List.not_mem_nil
    | some read => exact bracketed_property hvalue (by decide) hrun
  simp only at heq
  cases heq
  intro a ha
  simp only [TypeDeclaration.atoms, List.mem_cons, List.mem_append, mem_declsAtoms,
    mem_valuesAtoms] at ha
  obtain rfl | ⟨param, hparam, ha⟩ | ⟨arg, harg, ha⟩ := ha
  · exact Trimmed.of_identifier hname
  · exact hparams param hparam a ha
  · exact hargs _ arg harg a ha

theorem ofType_spelled {text rest : Text} {type : Text ⊕ TypeDeclaration} {constructor : Value}
    (h : typeDeclOrReference value declaration text = some (type, rest))
    (hconstructor : constructor.Spelled) : (ofType type constructor).Spelled := by
  intro a ha
  cases type with
  | inl name =>
    simp only [ofType, Value.atoms, List.mem_cons] at ha
    obtain rfl | ha := ha
    · trivial
    · exact hconstructor a ha
  | inr decl =>
    have hdecl : decl.Spelled := by
      obtain h | ⟨-, h⟩ := Option.or_eq_some_iff.mp h
      · obtain ⟨⟨decl', rest'⟩, hdecl, heq⟩ := Option.map_eq_some_iff.mp h
        cases heq
        exact typeDeclaration_spelled hvalue hdeclaration hdecl
      · obtain ⟨⟨name, rest'⟩, -, heq⟩ := Option.map_eq_some_iff.mp h
        cases heq
    simp only [ofType, Value.atoms, List.mem_cons, List.mem_append] at ha
    obtain rfl | ha | ha := ha
    · trivial
    · exact hdecl a ha
    · exact hconstructor a ha

theorem sdnStringOrTypedValue_spelled {text rest : Text} {v : Value}
    (h : sdnStringOrTypedValue value declaration text = some (v, rest)) : v.Spelled := by
  simp only [sdnStringOrTypedValue, Option.bind_eq_bind, Option.bind_eq_some_iff] at h
  obtain ⟨⟨body, behind⟩, hbody, h⟩ := h
  have hvarchar : (Value.varchar body).Spelled := by
    intro a ha
    cases List.mem_singleton.mp ha
    exact sdnString_text hbody
  simp only at h
  split at h
  case h_1 type behind' htype =>
    cases h
    simp only [typeSuffix, Option.bind_eq_bind, Option.bind_eq_some_iff] at htype
    obtain ⟨⟨_, inner⟩, -, htype⟩ := htype
    exact ofType_spelled hvalue hdeclaration htype hvarchar
  case h_2 =>
    cases h
    exact hvarchar

theorem typedValue_spelled {text rest : Text} {v : Value}
    (h : typedValue value declaration text = some (v, rest)) : v.Spelled ∨ Stuck rest := by
  simp only [typedValue, Option.bind_eq_bind, Option.bind_eq_some_iff] at h
  obtain ⟨⟨_, _⟩, -, ⟨type, _⟩, htype, ⟨_, _⟩, -, ⟨constructor, _⟩, hconstructor, heq⟩ := h
  cases heq
  obtain hspelled | hstuck := hvalue _ _ _ hconstructor
  · exact .inl (ofType_spelled hvalue hdeclaration htype hspelled)
  · exact .inr hstuck

omit hdeclaration in
theorem mapEntry_spelled {text rest : Text} {entry : Text × Value}
    (h : mapEntry value text = some (entry, rest)) :
    (¬EndsInBackslash entry.1 ∧ entry.2.Spelled) ∨ Stuck rest := by
  simp only [mapEntry, Option.bind_eq_bind, Option.bind_eq_some_iff] at h
  obtain ⟨⟨key, _⟩, hkey, ⟨_, _⟩, -, ⟨v, _⟩, hv, heq⟩ := h
  cases heq
  obtain hspelled | hstuck := hvalue _ _ _ hv
  · exact .inl ⟨sdnString_text hkey, hspelled⟩
  · exact .inr hstuck

theorem sdnValue_spelled (hreads : Reads value) {text rest : Text} {v : Value}
    (h : sdnValue value declaration text = some (v, rest)) : v.Spelled ∨ Stuck rest := by
  simp only [sdnValue, Option.or_eq_some_iff, Option.map_eq_some_iff, Option.map_eq_none_iff] at h
  obtain h | ⟨-, ⟨read, -, heq⟩ | ⟨hdouble, ⟨read, -, heq⟩ | ⟨-, ⟨read, hmap, heq⟩ | ⟨-,
    ⟨read, -, heq⟩ | ⟨-, ⟨read, harray, heq⟩ | ⟨-, ⟨read, hdecl, heq⟩ | ⟨-,
    htyped | ⟨-, read, -, heq⟩⟩⟩⟩⟩⟩⟩⟩ := h
  · exact .inl (sdnStringOrTypedValue_spelled hvalue hdeclaration h)
  · cases heq
    exact .inl (by simp [Value.Spelled, Value.atoms, Atom.Spelled])
  · cases heq
    exact .inl (by simp [Value.Spelled, Value.atoms])
  · cases heq
    refine .inl fun a ha => ?_
    have hentries := enclosed_property (fun _ _ _ => mapEntry_spelled hvalue) (by decide) hmap
    simp only [Value.atoms, List.mem_cons, mem_entriesAtoms] at ha
    obtain rfl | ⟨e, he, rfl | ha⟩ := ha
    · trivial
    · exact (hentries e (mem_putAll he)).1
    · exact (hentries e (mem_putAll he)).2 a ha
  · cases heq
    exact .inl (by simp [Value.Spelled, Value.atoms])
  · cases heq
    refine .inl fun a ha => ?_
    have hvalues := enclosed_property hvalue (by decide) harray
    simp only [Value.atoms, mem_valuesAtoms] at ha
    obtain ⟨v, hv, ha⟩ := ha
    exact hvalues v hv a ha
  · cases heq
    obtain hname | hstuck := standing_spelled hreads hdouble hdecl
    · refine .inl fun a ha => ?_
      simp only [Value.atoms, List.mem_cons] at ha
      obtain rfl | ha := ha
      · exact hname
      · exact typeDeclaration_spelled hvalue hdeclaration hdecl a ha
    · exact .inr hstuck
  · exact typedValue_spelled hvalue hdeclaration htyped
  · cases heq
    exact .inl (by simp [Value.Spelled, Value.atoms])

end Rules

theorem rules_spelled (depth : Nat) :
    (∀ text v rest, (rules depth).1 text = some (v, rest) → v.Spelled ∨ Stuck rest) ∧
      ∀ text decl rest, (rules depth).2 text = some (decl, rest) → decl.Spelled := by
  induction depth with
  | zero =>
    constructor
    · exact fun _ _ _ h => nomatch h
    · exact fun _ _ _ h => nomatch h
  | succ depth ih =>
    exact ⟨fun _ _ _ h => sdnValue_spelled ih.1 ih.2 (rules_reads depth).1 h,
      fun _ _ _ h => typeDeclaration_spelled ih.1 ih.2 h⟩

theorem parseValue_spelled {text rest : Text} {v : Value} (h : parseValue text = some (v, rest)) :
    v.Spelled ∨ Stuck rest :=
  (rules_spelled _).1 _ _ _ h

theorem parseDeclaration_spelled {text rest : Text} {decl : TypeDeclaration}
    (h : parseDeclaration text = some (decl, rest)) : decl.Spelled :=
  (rules_spelled _).2 _ _ _ h

end Memoria.Sdn

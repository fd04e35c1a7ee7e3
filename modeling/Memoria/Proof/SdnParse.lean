import Memoria.SdnParse
import Memoria.Proof.SdnSpelled

namespace Memoria.Sdn

open Peg

/-! A value whose actions have all succeeded can be built, so that an entry point comes to an end as
it should exactly if no action fails and there is a text for the error message to show. -/

variable (registered : Text → Bool) (refuses : Text → Value → Bool) (arenas : Arenas)
  (dictionary : Dictionary)

def Value.Builds (value : Value) : Prop := (value.build registered dictionary).isSome = true

def TypeDeclaration.Builds (decl : TypeDeclaration) : Prop :=
  (decl.build registered dictionary).isSome = true

theorem exists_buildValues {values : List Value}
    (h : ∀ value ∈ values, value.Builds registered dictionary) :
    ∃ built, buildValues registered dictionary values = some built := by
  induction values with
  | nil => exact ⟨[], rfl⟩
  | cons value values ih =>
    obtain ⟨hvalue, hvalues⟩ := List.forall_mem_cons.mp h
    obtain ⟨built, hbuilt⟩ := Option.isSome_iff_exists.mp hvalue
    obtain ⟨rest, hrest⟩ := ih hvalues
    exact ⟨built :: rest, by rw [buildValues, hbuilt, hrest]; rfl⟩

theorem exists_buildDecls {decls : List TypeDeclaration}
    (h : ∀ decl ∈ decls, decl.Builds registered dictionary) :
    ∃ built, buildDecls registered dictionary decls = some built := by
  induction decls with
  | nil => exact ⟨[], rfl⟩
  | cons decl decls ih =>
    obtain ⟨hdecl, hdecls⟩ := List.forall_mem_cons.mp h
    obtain ⟨built, hbuilt⟩ := Option.isSome_iff_exists.mp hdecl
    obtain ⟨rest, hrest⟩ := ih hdecls
    exact ⟨built :: rest, by rw [buildDecls, hbuilt, hrest]; rfl⟩

theorem exists_buildEntries {entries : List (Text × Value)}
    (h : ∀ entry ∈ entries, entry.2.Builds registered dictionary) :
    ∃ built, buildEntries registered dictionary entries = some built := by
  induction entries with
  | nil => exact ⟨[], rfl⟩
  | cons entry entries ih =>
    obtain ⟨hentry, hentries⟩ := List.forall_mem_cons.mp h
    obtain ⟨built, hbuilt⟩ := Option.isSome_iff_exists.mp hentry
    obtain ⟨rest, hrest⟩ := ih hentries
    exact ⟨(entry.1, built) :: rest, by rw [buildEntries, hbuilt, hrest]; rfl⟩

theorem TypeDeclaration.builds_mk {name : Text} {params : List TypeDeclaration} {args : List Value}
    (hparams : ∀ param ∈ params, param.Builds registered dictionary)
    (hargs : ∀ arg ∈ args, arg.Builds registered dictionary) :
    (TypeDeclaration.mk name params args).Builds registered dictionary := by
  obtain ⟨params', hparams'⟩ := exists_buildDecls registered dictionary hparams
  obtain ⟨args', hargs'⟩ := exists_buildValues registered dictionary hargs
  rw [Builds, build, hparams', hargs']
  rfl

/-- A typed value is built if its parts are and its action does not fail. -/
theorem builds_ofType {type : Text ⊕ TypeDeclaration} {constructor : Value}
    (htype : ∀ decl, type = .inr decl → decl.Builds registered dictionary)
    (hconstructor : constructor.Builds registered dictionary)
    (hfails : fails registered refuses dictionary (ofType type constructor) = false) :
    (ofType type constructor).Builds registered dictionary := by
  obtain ⟨built, hbuilt⟩ := Option.isSome_iff_exists.mp hconstructor
  cases type with
  | inl name =>
    rw [ofType, fails] at hfails
    rw [ofType, Value.Builds, Value.build, hbuilt]
    cases hlookup : dictionary.lookup name with
    | none =>
      rw [hlookup] at hfails
      cases hfails
    | some decl => rfl
  | inr decl =>
    obtain ⟨built', hbuilt'⟩ := Option.isSome_iff_exists.mp (htype decl rfl)
    rw [ofType, Value.Builds, Value.build, hbuilt', hbuilt]
    rfl

section Rules

variable {registered refuses dictionary}

/-- What is tried is fine in the alternative that succeeds. -/
theorem tried_skip {fine : Visit → Prop} {visits : List Visit} {others : List (Bool × List Visit)}
    (h : ∀ s ∈ tried ((false, visits) :: others), fine s) : ∀ s ∈ tried others, fine s := by
  simp only [tried, List.forall_mem_append] at h
  exact h.2

theorem tried_first {fine : Visit → Prop} {succeeds : Bool} {visits : List Visit}
    {others : List (Bool × List Visit)} (h : ∀ s ∈ tried ((succeeds, visits) :: others), fine s) :
    ∀ s ∈ visits, fine s := by
  simp only [tried, List.forall_mem_append] at h
  exact h.1

variable {value : Parser Char Value} {declaration : Parser Char TypeDeclaration}
  {valueVisits declarationVisits : Text → List Visit} {fine : Visit → Prop} {bound : Nat}

section Items

variable {α : Type} {item : Parser Char α} {visits : Text → List Visit} {property : α → Prop}
  (hreads : Reads item)
  (hitem : ∀ input value rest, input.length ≤ bound → (∀ s ∈ visits input, fine s) →
    item input = some (value, rest) → property value)

include hreads hitem

theorem items_visits {opening text inner behind : Text} {items : List α} (hopening : opening ≠ [])
    (htext : text.length ≤ bound + 1) (hfine : ∀ s ∈ bracketedVisits opening item visits text, fine s)
    (htoken : token opening text = some ((), inner))
    (hitems : sepBy (token [',']) item inner = some (items, behind)) :
    ∀ value ∈ items, property value := by
  have hshort := (token_reads hopening _ _ _ htoken).2
  rw [bracketedVisits, htoken] at hfine
  exact sepBy_visits comma_reads hreads hitem (by omega) hfine hitems

theorem opt_bracketed_visits {opening closing text : Text} (hopening : opening ≠ [])
    (htext : text.length ≤ bound + 1)
    (hfine : ∀ s ∈ bracketedVisits opening item visits text, fine s) :
    ∀ value ∈ (opt (bracketed opening closing item) [] text).1, property value := by
  cases hrun : bracketed opening closing item text with
  | none =>
    rw [opt, hrun]
    exact fun value hvalue => absurd hvalue List.not_mem_nil
  | some read =>
    rw [opt, hrun]
    simp only [bracketed, Option.bind_eq_bind, Option.bind_eq_some_iff] at hrun
    obtain ⟨⟨_, inner⟩, htoken, ⟨_, behind⟩, -, heq⟩ := hrun
    cases heq
    cases hitems : sepBy (token [',']) item inner with
    | none =>
      simp only [opt, hitems]
      exact fun value hvalue => absurd hvalue List.not_mem_nil
    | some items =>
      simp only [opt, hitems]
      exact items_visits hreads hitem hopening htext hfine htoken hitems

theorem enclosed_visits {opening closing text rest : Text} {values : List α}
    (hopening : opening ≠ []) (htext : text.length ≤ bound + 1)
    (hfine : ∀ s ∈ bracketedVisits opening item visits text, fine s)
    (hrun : enclosed opening closing item text = some (values, rest)) :
    ∀ value ∈ values, property value := by
  obtain h | ⟨-, h⟩ := Option.or_eq_some_iff.mp hrun
  · simp only [Option.bind_eq_bind, Option.bind_eq_some_iff] at h
    obtain ⟨⟨_, inner⟩, htoken, ⟨items, behind⟩, hitems, ⟨_, _⟩, -, heq⟩ := h
    cases heq
    exact items_visits hreads hitem hopening htext hfine htoken hitems
  · simp only [Option.bind_eq_bind, Option.bind_eq_some_iff] at h
    obtain ⟨⟨_, inner⟩, -, ⟨_, behind⟩, -, heq⟩ := h
    cases heq
    exact fun value hvalue => absurd hvalue List.not_mem_nil

end Items

variable (hvalueReads : Reads value) (hdeclarationReads : Reads declaration)
  (hvalue : ∀ text v rest, text.length ≤ bound → (∀ s ∈ valueVisits text, fine s) →
    value text = some (v, rest) → v.Builds registered dictionary)
  (hdeclaration : ∀ text decl rest, text.length ≤ bound → (∀ s ∈ declarationVisits text, fine s) →
    declaration text = some (decl, rest) → decl.Builds registered dictionary)

include hvalueReads hdeclarationReads hvalue hdeclaration

theorem typeDeclaration_builds {text rest : Text} {decl : TypeDeclaration}
    (htext : text.length ≤ bound + 1)
    (hfine : ∀ s ∈ typeDeclarationVisits value declaration valueVisits declarationVisits text, fine s)
    (h : typeDeclaration value declaration text = some (decl, rest)) :
    decl.Builds registered dictionary := by
  simp only [typeDeclaration, Option.bind_eq_bind, Option.bind_eq_some_iff] at h
  obtain ⟨⟨name, behind⟩, hname, heq⟩ := h
  have hshort := (identifier_reads _ _ _ hname).2
  rw [typeDeclarationVisits, hname] at hfine
  replace hfine := (List.forall_mem_cons.mp hfine).2
  simp only [List.forall_mem_append] at hfine
  have hangle := opt_suffix (bracketed_reads ['<'] ['>'] (by simp) (by simp) hdeclarationReads).within []
    behind
  have hparams : ∀ param ∈ (opt (bracketed ['<'] ['>'] declaration) [] behind).1,
      param.Builds registered dictionary :=
    opt_bracketed_visits hdeclarationReads hdeclaration (by simp) (by omega) hfine.1
  have hargs : ∀ arg ∈ (opt (bracketed ['('] [')'] value) []
      (opt (bracketed ['<'] ['>'] declaration) [] behind).2).1, arg.Builds registered dictionary :=
    opt_bracketed_visits hvalueReads hvalue (by simp) (le_trans hangle.length_le (by omega)) hfine.2
  cases heq
  exact TypeDeclaration.builds_mk registered dictionary hparams hargs

theorem typeSuffix_builds {text rest : Text} {type : Text ⊕ TypeDeclaration}
    (htext : text.length ≤ bound + 1)
    (hfine : ∀ s ∈ typeSuffixVisits value declaration valueVisits declarationVisits text, fine s)
    (h : typeSuffix value declaration text = some (type, rest)) {decl : TypeDeclaration}
    (htype : type = .inr decl) : decl.Builds registered dictionary := by
  simp only [typeSuffix, Option.bind_eq_bind, Option.bind_eq_some_iff] at h
  obtain ⟨⟨_, inner⟩, htoken, h⟩ := h
  have hshort := (token_reads (by simp) _ _ _ htoken).2
  rw [typeSuffixVisits, htoken] at hfine
  obtain h | ⟨-, h⟩ := Option.or_eq_some_iff.mp h
  · obtain ⟨⟨decl', rest'⟩, hdecl, heq⟩ := Option.map_eq_some_iff.mp h
    cases heq
    cases htype
    exact typeDeclaration_builds hvalueReads hdeclarationReads hvalue hdeclaration (by omega) hfine
      hdecl
  · obtain ⟨⟨name, rest'⟩, -, heq⟩ := Option.map_eq_some_iff.mp h
    cases heq
    cases htype

theorem sdnStringOrTypedValue_builds {text rest : Text} {v : Value} (htext : text.length ≤ bound + 1)
    (hfine : ∀ s ∈ sdnStringOrTypedValueVisits value declaration valueVisits declarationVisits text,
      fine s)
    (h : sdnStringOrTypedValue value declaration text = some (v, rest))
    (hfails : fails registered refuses dictionary v = false) : v.Builds registered dictionary := by
  simp only [sdnStringOrTypedValue, Option.bind_eq_bind, Option.bind_eq_some_iff] at h
  obtain ⟨⟨body, behind⟩, hbody, h⟩ := h
  have hshort := (sdnString_reads _ _ _ hbody).2
  rw [sdnStringOrTypedValueVisits, hbody] at hfine
  simp only at h
  split at h
  case h_1 type behind' htype =>
    cases h
    refine builds_ofType registered refuses dictionary (fun decl hdecl => ?_) rfl hfails
    exact typeSuffix_builds hvalueReads hdeclarationReads hvalue hdeclaration (by omega) hfine htype
      hdecl
  case h_2 =>
    cases h
    rfl

theorem typedValue_builds {text rest : Text} {v : Value} (htext : text.length ≤ bound + 1)
    (hfine : ∀ s ∈ typedValueVisits value declaration valueVisits declarationVisits text, fine s)
    (h : typedValue value declaration text = some (v, rest))
    (hfails : fails registered refuses dictionary v = false) : v.Builds registered dictionary := by
  simp only [typedValue, Option.bind_eq_bind, Option.bind_eq_some_iff] at h
  obtain ⟨⟨_, _⟩, hat, ⟨type, behind⟩, htype, ⟨_, inner⟩, hequals, ⟨constructor, _⟩, hconstructor,
    heq⟩ := h
  cases heq
  have hsuffix : typeSuffix value declaration text = some (type, behind) := by
    rw [typeSuffix, hat]
    exact htype
  have hbehind : behind.length < text.length :=
    (typeSuffix_reads hvalueReads hdeclarationReads _ _ _ hsuffix).2
  have hinner : inner.length < behind.length := (token_reads (by simp) _ _ _ hequals).2
  simp only [typedValueVisits, hsuffix, hequals, List.forall_mem_append] at hfine
  refine builds_ofType registered refuses dictionary (fun decl hdecl => ?_) ?_ hfails
  · exact typeSuffix_builds hvalueReads hdeclarationReads hvalue hdeclaration htext hfine.1 hsuffix
      hdecl
  · exact hvalue _ _ _ (by omega) hfine.2 hconstructor

omit hvalueReads hdeclarationReads hdeclaration in
theorem mapEntry_builds {text rest : Text} {entry : Text × Value} (htext : text.length ≤ bound + 1)
    (hfine : ∀ s ∈ mapEntryVisits valueVisits text, fine s)
    (h : mapEntry value text = some (entry, rest)) : entry.2.Builds registered dictionary := by
  simp only [mapEntry, Option.bind_eq_bind, Option.bind_eq_some_iff] at h
  obtain ⟨⟨key, behind⟩, hkey, ⟨_, inner⟩, hcolon, ⟨v, _⟩, hv, heq⟩ := h
  cases heq
  have hshort := (sdnString_reads _ _ _ hkey).2
  have hshorter : inner.length < behind.length := (token_reads (by simp) _ _ _ hcolon).2
  simp only [mapEntryVisits, hkey, hcolon] at hfine
  exact hvalue _ _ _ (by omega) hfine hv

theorem sdnValue_builds {text rest : Text} {v : Value} (htext : text.length ≤ bound + 1)
    (hfine : ∀ s ∈ sdnValueVisits value declaration valueVisits declarationVisits text, fine s)
    (h : sdnValue value declaration text = some (v, rest))
    (hfails : fails registered refuses dictionary v = false) : v.Builds registered dictionary := by
  have htried := (List.forall_mem_cons.mp hfine).2
  simp only [sdnValue, Option.or_eq_some_iff, Option.map_eq_some_iff, Option.map_eq_none_iff] at h
  obtain h | ⟨hstring, h⟩ := h
  · exact sdnStringOrTypedValue_builds hvalueReads hdeclarationReads hvalue hdeclaration htext
      (tried_first htried) h hfails
  rw [hstring] at htried
  obtain ⟨read, -, heq⟩ | ⟨hdouble, h⟩ := h
  · cases heq
    rfl
  rw [hdouble] at htried
  obtain ⟨read, -, heq⟩ | ⟨hlong, h⟩ := h
  · cases heq
    rfl
  rw [hlong] at htried
  replace htried := tried_skip (tried_skip (tried_skip htried))
  obtain ⟨read, hmap, heq⟩ | ⟨hmap, h⟩ := h
  · cases heq
    have hentries := enclosed_visits (mapEntry_reads hvalueReads)
      (fun _ _ _ => mapEntry_builds hvalue) (by simp) (Nat.le_succ_of_le htext) (tried_first htried) hmap
    obtain ⟨built, hbuilt⟩ := exists_buildEntries registered dictionary
      fun e he => hentries e (mem_putAll he)
    rw [Value.Builds, Value.build, hbuilt]
    rfl
  rw [hmap] at htried
  obtain ⟨read, -, heq⟩ | ⟨hnull, h⟩ := h
  · cases heq
    rfl
  rw [hnull] at htried
  replace htried := tried_skip (tried_skip htried)
  obtain ⟨read, harray, heq⟩ | ⟨harray, h⟩ := h
  · cases heq
    obtain ⟨built, hbuilt⟩ := exists_buildValues registered dictionary
      (enclosed_visits hvalueReads hvalue (by simp) htext (tried_first htried) harray)
    rw [Value.Builds, Value.build, hbuilt]
    rfl
  rw [harray] at htried
  replace htried := tried_skip htried
  obtain ⟨read, hdecl, heq⟩ | ⟨hdecl, h⟩ := h
  · cases heq
    have hbuilds := typeDeclaration_builds hvalueReads hdeclarationReads hvalue hdeclaration htext
      (tried_first htried) hdecl
    obtain ⟨built, hbuilt⟩ := Option.isSome_iff_exists.mp hbuilds
    rw [Value.Builds, Value.build, hbuilt]
    rfl
  rw [hdecl] at htried
  replace htried := tried_skip htried
  obtain htyped | ⟨-, read, -, heq⟩ := h
  · exact typedValue_builds hvalueReads hdeclarationReads hvalue hdeclaration htext
      (tried_first htried) htyped hfails
  · cases heq
    rfl

end Rules

theorem visits_builds (depth : Nat) :
    (∀ text v rest, text.length < depth →
      (∀ s ∈ (visits depth).1 text, failsAt registered refuses arenas dictionary s = false) →
        (rules depth).1 text = some (v, rest) → v.Builds registered dictionary) ∧
    (∀ text decl rest, text.length < depth →
      (∀ s ∈ (visits depth).2 text, failsAt registered refuses arenas dictionary s = false) →
        (rules depth).2 text = some (decl, rest) → decl.Builds registered dictionary) := by
  induction depth with
  | zero => exact ⟨fun _ _ _ h => absurd h (Nat.not_lt_zero _), fun _ _ _ h => absurd h (Nat.not_lt_zero _)⟩
  | succ depth ih =>
    have hvalue : ∀ text v rest, text.length ≤ depth - 1 →
        (∀ s ∈ (visits depth).1 text, failsAt registered refuses arenas dictionary s = false) →
          (rules depth).1 text = some (v, rest) → v.Builds registered dictionary := by
      cases depth with
      | zero => exact fun _ _ _ _ _ h => nomatch h
      | succ depth => exact fun text v rest hlength => ih.1 text v rest (by omega)
    have hdeclaration : ∀ text decl rest, text.length ≤ depth - 1 →
        (∀ s ∈ (visits depth).2 text, failsAt registered refuses arenas dictionary s = false) →
          (rules depth).2 text = some (decl, rest) → decl.Builds registered dictionary := by
      cases depth with
      | zero => exact fun _ _ _ _ _ h => nomatch h
      | succ depth => exact fun text decl rest hlength => ih.2 text decl rest (by omega)
    have hreads := rules_reads depth
    constructor
    · intro text v rest hlength hfine h
      -- The value at the whole text is the one that `parseValue` reads there.
      have hagree := parseValue_agree (Nat.lt_succ_self depth) text (Nat.le_of_lt_succ hlength)
      have hhere := hfine (.value text) List.mem_cons_self
      rw [failsAt, ← hagree, h] at hhere
      exact sdnValue_builds hreads.1 hreads.2 hvalue hdeclaration (by omega) hfine h hhere
    · intro text decl rest hlength hfine h
      exact typeDeclaration_builds hreads.1 hreads.2 hvalue hdeclaration (by omega) hfine h

theorem parseValue_builds {text rest : Text} {value : Value}
    (hfine : ∀ s ∈ parseValueVisits text, failsAt registered refuses arenas dictionary s = false)
    (h : parseValue text = some (value, rest)) : value.Builds registered dictionary :=
  (visits_builds registered refuses arenas dictionary _).1 text value rest (Nat.lt_succ_self _) hfine h

theorem parseDeclaration_builds {text rest : Text} {decl : TypeDeclaration}
    (hfine : ∀ s ∈ parseDeclarationVisits text, failsAt registered refuses arenas dictionary s = false)
    (h : parseDeclaration text = some (decl, rest)) : decl.Builds registered dictionary :=
  (visits_builds registered refuses arenas dictionary _).2 text decl rest (Nat.lt_succ_self _) hfine h

theorem messageReads_lt {start stop : Nat} (h : start < stop) (rounds : Nat) :
    ∀ position ∈ messageReads rounds start stop, position < stop := by
  induction rounds generalizing start with
  | zero => exact fun position hposition => nomatch hposition
  | succ rounds ih =>
    rw [messageReads, List.forall_mem_cons]
    refine ⟨h, ?_⟩
    split
    · exact fun position hposition => nomatch hposition
    · exact ih (by omega)

theorem start_mem_messageReads (rounds start stop : Nat) :
    start ∈ messageReads (rounds + 1) start stop :=
  List.mem_cons_self

variable {registered refuses arenas dictionary}

theorem readable_iff {doc : Document} : (∀ name, doc.getNamedTypeDeclaration name =
    some (doc.namedTypes.lookup name)) ↔ doc.typeDirectory ≠ some [] := by
  unfold Document.getNamedTypeDeclaration Document.namedTypes
  cases doc.typeDirectory with
  | none => simp
  | some dictionary =>
    cases dictionary with
    | nil => simp
    | cons e es => simp

/-- A message is made of the text alone if there is some left to show. -/
theorem parseFailed_clean {doc before : Document} {text rest : Text}
    (hvalue : doc.value = before.value) (hnames : doc.namedTypes = before.namedTypes)
    (hrest : rest.length ≤ text.length) :
    (parseFailed text rest doc).Clean before text.length ↔
      rest ≠ [] ∧ doc.typeDirectory ≠ some [] := by
  constructor
  · rintro ⟨hreads, -, hreadable⟩
    rw [← hnames] at hreadable
    refine ⟨?_, readable_iff.mp hreadable⟩
    rintro rfl
    exact Nat.lt_irrefl _ (hreads text.length (start_mem_messageReads 124 _ _))
  · rintro ⟨hne, hdirectory⟩
    have hlength := List.length_pos_iff.mpr hne
    refine ⟨messageReads_lt (by omega) 125, hvalue, ?_⟩
    rw [← hnames]
    exact readable_iff.mpr hdirectory

/-- Where an action of the parse fails the call breaks. -/
theorem unless_fails_clean {texts : List Visit} {fails : Visit → Bool} {outcome : Outcome}
    {before : Document} {length : Nat} :
    (if texts.any fails then Outcome.breaks else outcome).Clean before length ↔
      (∀ s ∈ texts, fails s = false) ∧ outcome.Clean before length := by
  by_cases hany : texts.any fails = true
  · rw [if_pos hany]
    refine ⟨False.elim, ?_⟩
    rintro ⟨hfine, -⟩
    obtain ⟨s, hs, hfails⟩ := List.any_eq_true.mp hany
    rw [hfine s hs] at hfails
    cases hfails
  · rw [if_neg hany]
    refine (and_iff_right ?_).symm
    intro s hs
    exact Bool.eq_false_iff.mpr fun hfails => hany (List.any_eq_true.mpr ⟨s, hs, hfails⟩)

theorem skip_length_le (text : Text) : (skip text).length ≤ text.length :=
  (skip_suffix text).length_le

theorem parseValue_ne_nil {text rest : Text} {value : Value}
    (h : parseValue text = some (value, rest)) : skip text ≠ [] := by
  intro hblank
  have hall : Blank text := List.dropWhile_eq_nil_iff.mp hblank
  have hnone := parseValue_blank hall []
  rw [List.append_nil, h, parseValue_reads.eq_none_of_nil] at hnone
  cases hnone

theorem isWhole_iff {α : Type} {parser : Parser Char α} {text rest : Text} {item : α}
    (h : parser text = some (item, rest)) : IsWhole parser text ↔ skip rest = [] := by
  constructor
  · rintro ⟨item', rest', h', hend⟩
    obtain ⟨rfl, rfl⟩ := Prod.mk.inj (Option.some.inj (h.symm.trans h'))
    exact hend
  · exact fun hend => ⟨item, rest, h, hend⟩

theorem not_isWhole {α : Type} {parser : Parser Char α} {text : Text} (h : parser text = none) :
    ¬ IsWhole parser text := by
  rintro ⟨item, rest, h', -⟩
  rw [h] at h'
  cases h'

theorem declarationOutcome_clean {doc before : Document} {text : Text}
    {finish : TypeDeclaration → Document} (hvalue : doc.value = before.value)
    (hnames : doc.namedTypes = before.namedTypes) :
    (declarationOutcome registered refuses arenas doc text finish).Clean before text.length ↔
      text ≠ [] ∧ (∀ s ∈ parseDeclarationVisits text,
        failsAt registered refuses arenas doc.namedTypes s = false) ∧
      (doc.typeDirectory = some [] → IsWhole parseDeclaration text) := by
  rw [declarationOutcome, unless_fails_clean, and_left_comm]
  refine and_congr_right fun hfine => ?_
  cases hread : parseDeclaration text with
  | none =>
    rw [imp_iff_not (not_isWhole hread)]
    exact parseFailed_clean hvalue hnames le_rfl
  | some read =>
    obtain ⟨decl, rest⟩ := read
    have hshort := (parseDeclaration_reads _ _ _ hread).2
    have htext : text ≠ [] := List.ne_nil_of_length_pos (by omega)
    rw [and_iff_right htext, isWhole_iff hread]
    obtain ⟨built, hbuilt⟩ :=
      Option.isSome_iff_exists.mp (parseDeclaration_builds registered refuses arenas _ hfine hread)
    by_cases hend : (skip rest).isEmpty = true
    · simp only [if_pos hend, hbuilt]
      exact iff_of_true trivial fun _ => List.isEmpty_iff.mp hend
    · simp only [if_neg hend]
      have hne : skip rest ≠ [] := fun hnil => hend (by rw [hnil]; rfl)
      rw [parseFailed_clean hvalue hnames ((skip_length_le rest).trans (by omega)),
        and_iff_right hne, imp_iff_not hne]

theorem setSdn_clean (doc : Document) (text : Text) :
    (setSdn registered refuses arenas doc text).Clean doc text.length ↔
      skip text ≠ [] ∧ (∀ s ∈ parseValueVisits text,
        failsAt registered refuses arenas doc.namedTypes s = false) ∧
      (doc.typeDirectory = some [] → IsWhole parseValue text) := by
  rw [setSdn, unless_fails_clean, and_left_comm]
  refine and_congr_right fun hfine => ?_
  cases hread : parseValue text with
  | none =>
    rw [imp_iff_not (not_isWhole hread)]
    exact parseFailed_clean rfl rfl (skip_length_le text)
  | some read =>
    obtain ⟨value, rest⟩ := read
    have hshort := (parseValue_reads _ _ _ hread).2
    rw [and_iff_right (parseValue_ne_nil hread), isWhole_iff hread]
    obtain ⟨built, hbuilt⟩ :=
      Option.isSome_iff_exists.mp (parseValue_builds registered refuses arenas _ hfine hread)
    by_cases hend : (skip rest).isEmpty = true
    · simp only [if_pos hend, hbuilt]
      exact iff_of_true trivial fun _ => List.isEmpty_iff.mp hend
    · simp only [if_neg hend]
      have hne : skip rest ≠ [] := fun hnil => hend (by rw [hnil]; rfl)
      rw [parseFailed_clean rfl rfl ((skip_length_le rest).trans (by omega)), and_iff_right hne,
        imp_iff_not hne]

theorem typeDirectoryEntry_reads : Reads typeDirectoryEntry :=
  identifier_reads.bind fun name => (token_reads (by simp)).within.bind fun _ =>
    parseDeclaration_reads.within.bind fun decl => Within.pure (name, decl)

theorem typeDirectoryEntry_of_start {text rest : Text} {entry : Text × TypeDeclaration}
    (h : typeDirectoryEntry text = some (entry, rest)) :
    ∃ behind, ((identifier text).bind fun read => token [':'] read.2) = some ((), behind) := by
  simp only [typeDirectoryEntry, Option.bind_eq_bind, Option.bind_eq_some_iff] at h
  obtain ⟨⟨name, inner⟩, hname, ⟨_, behind⟩, hcolon, -⟩ := h
  exact ⟨behind, by rw [hname]; exact hcolon⟩

/-- Entries that are added as they are read are those of the whole directory. -/
theorem buildDictionary_of_addEntries {rounds fuel : Nat} {done final : Dictionary} {rest : Text}
    (hrounds : rest.length ≤ rounds) (hfuel : rest.length ≤ fuel)
    (h : (match token [','] rest with
      | none => some done
      | some (_, behind) => addEntries registered refuses arenas fuel done behind) = some final) :
    buildDictionary registered done (more (token [',']) typeDirectoryEntry rounds rest).1 =
      some final := by
  induction rounds generalizing fuel done rest with
  | zero =>
    have hnil : rest = [] := List.eq_nil_of_length_eq_zero (Nat.le_zero.mp hrounds)
    rw [hnil, token_nil] at h
    exact h
  | succ rounds ih =>
    cases hcomma : token [','] rest with
    | none =>
      rw [hcomma] at h
      rw [more_of_none hcomma]
      exact h
    | some read =>
      obtain ⟨_, behind⟩ := read
      have hshort : behind.length < rest.length := (comma_reads _ _ _ hcomma).2
      obtain ⟨fuel, rfl⟩ : ∃ n, fuel = n + 1 := ⟨fuel - 1, by omega⟩
      rw [hcomma] at h
      cases hentry : typeDirectoryEntry behind with
      | none =>
        simp only [addEntries, hentry] at h
        have hfinal : done = final := by
          split at h
          · exact Option.some.inj h
          · split at h
            · cases h
            · exact Option.some.inj h
        simp only [more, hcomma, hentry, hfinal]
        rfl
      | some read =>
        obtain ⟨⟨name, decl⟩, rest'⟩ := read
        have hshorter : rest'.length < behind.length :=
          (typeDirectoryEntry_reads _ _ _ hentry).2
        obtain ⟨inner, hstart⟩ := typeDirectoryEntry_of_start hentry
        simp only [addEntries, hstart, hentry] at h
        split at h
        · cases h
        cases hbuilt : decl.build registered done with
        | none =>
          rw [hbuilt] at h
          cases h
        | some built =>
          rw [hbuilt] at h
          have hrest := ih (show rest'.length ≤ rounds by omega) (show rest'.length ≤ fuel by omega) h
          simp only [more, hcomma, hentry, buildDictionary, hbuilt, Option.bind_eq_bind,
            Option.bind_some]
          exact hrest

theorem typeDirectory_reads : Reads typeDirectory :=
  enclosed_reads (by simp) (by simp) typeDirectoryEntry_reads

theorem skip_of_token {c : Char} {word text : Text} {read : Unit × Text}
    (h : token (c :: word) text = some read) : ∃ tail, skip text = c :: tail := by
  simp only [token, lit, Option.ite_none_right_eq_some] at h
  obtain ⟨tail, htail⟩ := h.1
  exact ⟨word ++ tail, htail.symm⟩

/-- No value starts with the mark of a directory. -/
theorem parseValue_of_hash {text tail : Text} (h : skip text = '#' :: tail) :
    parseValue text = none := by
  have hsplit : text = text.takeWhile isSpace ++ ('#' :: tail) := by
    rw [← h]
    exact List.takeWhile_append_dropWhile.symm
  have hblank : Blank (text.takeWhile isSpace) := fun c hc => List.mem_takeWhile_imp hc
  have hspace : isSpace '#' = false := by decide
  rw [hsplit, parseValue_blank hblank, parseValue_eq, sdnValue, boolValue,
    sdnStringOrTypedValue_eq_none hspace _ (by decide) (by decide),
    strictDouble_eq_none hspace (by decide),
    longLong_eq_none hspace (by decide) (by decide) (by decide),
    enclosed_eq_none hspace _ (by decide), token_ne hspace (by decide),
    enclosed_eq_none hspace _ (by decide), typeDeclaration_eq_none hspace _ (by decide),
    typedValue_eq_none hspace _ (by decide), token_ne hspace (by decide),
    token_ne hspace (by decide)]
  rfl

/-- The dictionary that is there behind a directory is the one its entries build. -/
theorem buildDictionary_of_addTypeDirectory {text rest : Text} {directory dictionary : Dictionary}
    (hadded : addTypeDirectory registered refuses arenas text = some dictionary)
    (hread : typeDirectory text = some (directory, rest)) :
    buildDictionary registered [] directory = some dictionary := by
  simp only [typeDirectory, enclosed, Option.or_eq_some_iff, Option.bind_eq_bind,
    Option.bind_eq_some_iff] at hread
  obtain ⟨⟨_, inner⟩, htoken, ⟨entries, behind⟩, hentries, ⟨_, _⟩, -, heq⟩ |
    ⟨-, ⟨_, inner⟩, htoken, ⟨_, behind⟩, hclose, heq⟩ := hread
  · cases heq
    simp only [sepBy, Option.bind_eq_bind, Option.bind_eq_some_iff] at hentries
    obtain ⟨⟨⟨name, decl⟩, rest'⟩, hentry, heq⟩ := hentries
    cases heq
    have hshort : rest'.length < inner.length := (typeDirectoryEntry_reads _ _ _ hentry).2
    obtain ⟨start, hstart⟩ := typeDirectoryEntry_of_start hentry
    simp only [addTypeDirectory, htoken, addEntries, hstart, hentry] at hadded
    split at hadded
    · cases hadded
    cases hbuilt : decl.build registered [] with
    | none =>
      rw [hbuilt] at hadded
      cases hadded
    | some built =>
      rw [hbuilt] at hadded
      rw [buildDictionary, hbuilt]
      exact buildDictionary_of_addEntries le_rfl (Nat.le_of_lt hshort) hadded
  · cases heq
    have hnone : identifier inner = none := by
      obtain ⟨tail, hskip⟩ := skip_of_token hclose
      rw [identifier, hskip]
      simp [identifierAt, isIdentStart]
    simp only [addTypeDirectory, htoken, addEntries, hnone] at hadded
    exact hadded

/-- What a parse returns is the document of `parse`. -/
theorem parse_of_parseOutcome {text : Text} {doc : Document}
    (h : parseOutcome registered refuses arenas text = .returns doc) :
    parse registered text = some doc := by
  unfold parseOutcome at h
  cases hadded : addTypeDirectory registered refuses arenas text with
  | none =>
    rw [hadded] at h
    cases h
  | some dictionary =>
    simp only [hadded] at h
    split at h
    · cases h
    cases hread : parseValue (opt typeDirectory [] text).2 with
    | none =>
      rw [hread] at h
      cases h
    | some read =>
      obtain ⟨value, rest⟩ := read
      have hdictionary : buildDictionary registered [] (opt typeDirectory [] text).1 =
          some dictionary := by
        cases hdirectory : typeDirectory text with
        | some read =>
          rw [opt, hdirectory]
          exact buildDictionary_of_addTypeDirectory hadded hdirectory
        | none =>
          rw [opt, hdirectory] at hread ⊢
          cases htoken : token ['#', '{'] text with
          | none =>
            rw [addTypeDirectory, htoken] at hadded
            exact hadded
          | some read' =>
            obtain ⟨tail, hskip⟩ := skip_of_token htoken
            have hnone := parseValue_of_hash hskip
            rw [Option.getD_none, hnone] at hread
            cases hread
      simp only [hread] at h
      by_cases hend : (skip rest).isEmpty = true
      · rw [if_pos hend] at h
        cases hbuilt : value.build registered dictionary with
        | none =>
          rw [hbuilt] at h
          cases h
        | some built =>
          rw [hbuilt] at h
          cases h
          simp only [parse, hread, if_pos hend, hdictionary, hbuilt, Option.bind_eq_bind,
            Option.bind_some]
          rfl
      · rw [if_neg hend] at h
        cases h

theorem new_typeDirectory : Document.new.typeDirectory ≠ some [] :=
  Option.some_ne_none [] ∘ Eq.symm

theorem parseOutcome_clean (text : Text) :
    (parseOutcome registered refuses arenas text).Clean Document.new text.length ↔
      text ≠ [] ∧
        ∃ dictionary, addTypeDirectory registered refuses arenas text = some dictionary ∧
          ∀ s ∈ parseValueVisits (opt typeDirectory [] text).2,
            failsAt registered refuses arenas dictionary s = false := by
  unfold parseOutcome
  cases hdictionary : addTypeDirectory registered refuses arenas text with
  | none =>
    refine iff_of_false id ?_
    rintro ⟨-, dictionary, heq, -⟩
    cases heq
  | some dictionary =>
    simp only [unless_fails_clean, Option.some.injEq, exists_eq_left']
    rw [and_comm]
    refine and_congr_left fun hfine => ?_
    cases hread : parseValue (opt typeDirectory [] text).2 with
    | none => exact (parseFailed_clean rfl rfl le_rfl).trans (and_iff_left new_typeDirectory)
    | some read =>
      obtain ⟨value, rest⟩ := read
      have hshort := (parseValue_reads _ _ _ hread).2
      have hwithin := (opt_suffix typeDirectory_reads.within [] text).length_le
      have htext : text ≠ [] := List.ne_nil_of_length_pos (by omega)
      refine iff_of_true ?_ htext
      obtain ⟨built, hbuilt⟩ :=
        Option.isSome_iff_exists.mp (parseValue_builds registered refuses arenas _ hfine hread)
      by_cases hend : (skip rest).isEmpty = true
      · simp only [if_pos hend, hbuilt]
        trivial
      · simp only [if_neg hend]
        refine (parseFailed_clean rfl rfl ((skip_length_le rest).trans (by omega))).mpr
          ⟨?_, new_typeDirectory⟩
        exact fun hnil => hend (by rw [hnil]; rfl)

end Memoria.Sdn

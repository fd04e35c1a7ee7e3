import Memoria.Proof.SdnRules

namespace Memoria.Sdn

open Peg

/-! The tokens of a dumped text and how they are read back. -/

def Blank (text : Text) : Prop := ∀ c ∈ text, isSpace c = true

theorem Blank.nil : Blank [] := by simp [Blank]

theorem Blank.append {first second : Text} (hfirst : Blank first) (hsecond : Blank second) :
    Blank (first ++ second) := by
  intro c hc
  exact (List.mem_append.mp hc).elim (hfirst c) (hsecond c)

theorem skip_blank {blanks : Text} (h : Blank blanks) (text : Text) :
    skip (blanks ++ text) = skip text :=
  dropWhile_append_of_all h text

theorem skip_cons {c : Char} (h : isSpace c = false) (text : Text) : skip (c :: text) = c :: text :=
  dropWhile_cons_of_not h text

theorem Blank.skip_eq_nil {text : Text} (h : Blank text) : skip text = [] := by
  have := skip_blank h []
  rwa [List.append_nil] at this

theorem token_blank {blanks : Text} (h : Blank blanks) (word text : Text) :
    token word (blanks ++ text) = token word text :=
  lit_append_blanks h word text

theorem token_append {c : Char} (h : isSpace c = false) (word text : Text) :
    token (c :: word) (c :: word ++ text) = some ((), text) :=
  lit_append h word text

theorem token_ne {c d : Char} (h : isSpace d = false) (hne : c ≠ d) (word text : Text) :
    token (c :: word) (d :: text) = none :=
  lit_ne h hne word text

theorem token_eq_none {word text : Text} (hskip : skip text = text) (h : ¬word <+: text) :
    token word text = none := by
  unfold token lit
  rw [show text.dropWhile isSpace = text from hskip]
  exact if_neg h

theorem token_nil {c : Char} (word : Text) : token (c :: word) [] = none :=
  (token_reads (by simp)).eq_none_of_nil

structure DumpFormatState.Blank (state : DumpFormatState) : Prop where
  space : Sdn.Blank state.space
  nlStart : Sdn.Blank state.nlStart
  nlMiddle : Sdn.Blank state.nlMiddle
  nlEnd : Sdn.Blank state.nlEnd

namespace DumpFormatState

theorem blank_default : default.Blank := by
  constructor <;> simp [default, Sdn.Blank, isSpace]

theorem blank_simple : simple.Blank := by
  constructor <;> simp [simple, Sdn.Blank, isSpace]

theorem blank_noIndent : noIndent.Blank := by
  constructor <;> simp [noIndent, Sdn.Blank]

theorem Blank.push {state : DumpFormatState} (h : state.Blank) : state.push.Blank :=
  ⟨h.space, h.nlStart, h.nlMiddle, h.nlEnd⟩

theorem Blank.makeIndent {state : DumpFormatState} (h : state.Blank) :
    Sdn.Blank state.makeIndent := by
  intro c hc
  simp only [DumpFormatState.makeIndent, List.mem_flatten, List.mem_replicate] at hc
  obtain ⟨text, ⟨-, rfl⟩, hc⟩ := hc
  exact h.space c hc

end DumpFormatState

structure Follow (text : Text) : Prop where
  head : ∀ c ∈ text.head?, isIdentPart c = false ∧ c ≠ '.'
  next : ∀ c ∈ (skip text).head?, c ≠ '<' ∧ c ≠ '(' ∧ c ≠ '@'

def closers : List Char := [',', '>', ')', ']', '}', '=']

theorem isSpace_closer {c : Char} (h : c ∈ closers) : isSpace c = false := by
  have hclosers : ∀ d ∈ closers, isSpace d = false := by simp [closers, isSpace]
  exact hclosers c h

theorem Follow.nil : Follow [] := by
  constructor <;> simp [skip]

theorem isIdentPart_of_isSpace {c : Char} (h : isSpace c = true) : isIdentPart c = false := by
  simp only [isSpace, Bool.or_eq_true, decide_eq_true_eq] at h
  obtain ((((rfl | rfl) | rfl) | rfl) | rfl) | rfl := h <;> decide

theorem ne_dot_of_isSpace {c : Char} (h : isSpace c = true) : c ≠ '.' := by
  rintro rfl
  exact absurd h (by decide)

theorem Follow.of_closer {blanks : Text} (h : Blank blanks) {c : Char} (hc : c ∈ closers)
    (text : Text) : Follow (blanks ++ c :: text) := by
  have hclosers : ∀ d ∈ closers, isSpace d = false ∧ isIdentPart d = false ∧ d ≠ '.' ∧ d ≠ '<' ∧
      d ≠ '(' ∧ d ≠ '@' := by simp [closers, isSpace, isIdentPart]
  obtain ⟨hspace, hpart, hdot, hangle, hround, hat⟩ := hclosers c hc
  constructor
  · intro d hd
    cases blanks with
    | nil =>
      cases Option.mem_some.mp hd
      exact ⟨hpart, hdot⟩
    | cons b blanks =>
      have hb := h b List.mem_cons_self
      cases Option.mem_some.mp hd
      exact ⟨isIdentPart_of_isSpace hb, ne_dot_of_isSpace hb⟩
  · intro d hd
    rw [skip_blank h, skip_cons hspace] at hd
    cases Option.mem_some.mp hd
    exact ⟨hangle, hround, hat⟩

/-- A token that may not stand there is not found behind a value. -/
theorem Follow.token_none {text : Text} (h : Follow text) {c : Char}
    (hc : c = '<' ∨ c = '(' ∨ c = '@') : token [c] text = none := by
  have hskip : token [c] text = token [c] (skip text) := (lit_skip _ _).symm
  have hnext := h.next
  have hblank : ∀ d ∈ (skip text).head?, isSpace d = false := by
    intro d hd
    have hhead := List.head?_dropWhile_not isSpace text
    rw [show (text.dropWhile isSpace).head? = some d from hd] at hhead
    exact hhead
  rw [hskip]
  cases hs : skip text with
  | nil => exact token_nil []
  | cons d rest =>
    rw [hs] at hnext hblank
    have hd := hnext d rfl
    refine token_ne (hblank d rfl) ?_ [] rest
    rintro rfl
    obtain rfl | rfl | rfl := hc
    · exact hd.1 rfl
    · exact hd.2.1 rfl
    · exact hd.2.2 rfl

def EndsInBackslash (text : Text) : Prop := text.getLast? = some '\\'

instance (text : Text) : Decidable (EndsInBackslash text) := by
  unfold EndsInBackslash
  infer_instance

theorem EndsInBackslash.cons_iff {c : Char} {text : Text} (h : text ≠ []) :
    EndsInBackslash (c :: text) ↔ EndsInBackslash text := by
  unfold EndsInBackslash
  rw [List.getLast?_cons_of_ne_nil h]

theorem escapeQuotes_cons (c : Char) (text : Text) :
    escapeQuotes (c :: text) = (if c = '\x27' then ['\\', c] else [c]) ++ escapeQuotes text := rfl

/-- An escaped text never starts with a quote. -/
theorem head_escapeQuotes_ne {text rest rest' : Text} {d : Char}
    (h : escapeQuotes text ++ '\x27' :: rest = d :: rest') (hne : text ≠ []) : d ≠ '\x27' := by
  cases text with
  | nil => exact absurd rfl hne
  | cons c text =>
    rw [escapeQuotes_cons] at h
    split_ifs at h with hc
    · rintro rfl
      cases h
    · rintro rfl
      cases h
      exact hc rfl

theorem stringBody_escapeQuotes {text : Text} (h : ¬EndsInBackslash text) (rest : Text) :
    stringBody '\x27' (escapeQuotes text ++ '\x27' :: rest) = (text, '\x27' :: rest) := by
  induction text with
  | nil =>
    cases rest with
    | nil => rfl
    | cons d rest => rfl
  | cons c text ih =>
    have htext : ¬EndsInBackslash text := by
      intro hend
      have hne : text ≠ [] := by
        rintro rfl
        cases hend
      exact h ((EndsInBackslash.cons_iff hne).mpr hend)
    have hread := ih htext
    rw [escapeQuotes_cons]
    by_cases hc : c = '\x27'
    · subst hc
      simp only [if_true, List.cons_append, List.nil_append, stringBody, hread]
      rfl
    · rw [if_neg hc]
      obtain ⟨d, tail, htail⟩ : ∃ d tail, escapeQuotes text ++ '\x27' :: rest = d :: tail := by
        cases hs : escapeQuotes text ++ '\x27' :: rest with
        | nil => simp at hs
        | cons d tail => exact ⟨d, tail, rfl⟩
      have hplain : ¬(c = '\\' ∧ d = '\x27') := by
        rintro ⟨rfl, rfl⟩
        by_cases hne : text = []
        · subst hne
          exact h rfl
        · exact head_escapeQuotes_ne htail hne rfl
      rw [htail] at hread
      simp only [List.cons_append, List.nil_append, htail, stringBody, if_neg hc, if_neg hplain,
        hread]

theorem sdnString_dumpString {text : Text} (h : ¬EndsInBackslash text) (rest : Text) :
    sdnString (dumpString text ++ rest) = some (text, rest) := by
  have hquote : quotedWith '\x27' (dumpString text ++ rest) = some (text, rest) := by
    simp only [quotedWith, dumpString, List.cons_append, List.append_assoc, List.nil_append,
      skip_cons (show isSpace '\x27' = false by decide), if_true, stringBody_escapeQuotes h]
  simp only [sdnString, hquote, Option.some_or]

theorem eq_quote_of_stringBody_nil {quote d : Char} {text rest : Text}
    (h : stringBody quote (d :: text) = ([], rest)) : d = quote := by
  by_contra hne
  cases text with
  | nil =>
    rw [stringBody, if_neg hne] at h
    cases h
  | cons e text =>
    rw [stringBody, if_neg hne] at h
    split_ifs at h <;> cases h

/-- A string that is read does not end in a backslash. -/
theorem not_endsInBackslash_stringBody {quote : Char} (hquote : quote ≠ '\\') {text : Text}
    (h : (stringBody quote text).2 ≠ []) : ¬EndsInBackslash (stringBody quote text).1 := by
  fun_induction stringBody quote text with
  | case1 => exact absurd rfl h
  | case2 => simp [EndsInBackslash]
  | case3 => exact absurd rfl h
  | case4 => simp [EndsInBackslash]
  | case5 c d text _ _ body rest hrun ih =>
    rw [hrun] at ih
    by_cases hbody : body = []
    · subst hbody
      simpa [EndsInBackslash] using hquote
    · rw [EndsInBackslash.cons_iff hbody]
      exact ih h
  | case6 c d text hc hplain body rest hrun ih =>
    rw [hrun] at ih
    by_cases hbody : body = []
    · -- the next character closes the string, so the last one is not a backslash
      subst hbody
      have hd := eq_quote_of_stringBody_nil hrun
      have hc : c ≠ '\\' := fun hc => hplain ⟨hc, hd⟩
      simpa [EndsInBackslash] using hc
    · rw [EndsInBackslash.cons_iff hbody]
      exact ih h

theorem quotedWith_text {quote : Char} (hquote : quote ≠ '\\') {input text rest : Text}
    (h : quotedWith quote input = some (text, rest)) : ¬EndsInBackslash text := by
  simp only [quotedWith] at h
  split at h
  case h_1 c inner _ =>
    split_ifs at h
    split at h
    case h_1 body d rest' hbody =>
      cases h
      have hnonempty : (stringBody quote inner).2 ≠ [] := by
        rw [hbody]
        exact List.cons_ne_nil _ _
      have := not_endsInBackslash_stringBody hquote hnonempty
      rwa [hbody] at this
    case h_2 => cases h
  case h_2 => cases h

theorem sdnString_text {input text rest : Text} (h : sdnString input = some (text, rest)) :
    ¬EndsInBackslash text := by
  obtain h | ⟨-, h⟩ := Option.or_eq_some_iff.mp h
  · exact quotedWith_text (by decide) h
  · exact quotedWith_text (by decide) h

def Word (name : Text) : Prop := identifierAt name = some (name, [])

def Trimmed (name : Text) : Prop :=
  (∀ c ∈ name.head?, isSpace c = false) ∧ ∀ c ∈ name.getLast?, isSpace c = false

instance (name : Text) : Decidable (Trimmed name) := by
  unfold Trimmed
  infer_instance

theorem identifierAt_eq_some {text name rest : Text} (h : identifierAt text = some (name, rest)) :
    ∃ c tail, text = c :: tail ∧ isIdentStart c = true ∧ name = c :: tail.takeWhile isIdentPart ∧
      rest = tail.dropWhile isIdentPart ∧ ¬['n', 'u', 'l', 'l'] <+: text ∧
      ¬['t', 'r', 'u', 'e'] <+: text ∧ ¬['f', 'a', 'l', 's', 'e'] <+: text := by
  simp only [identifierAt, Option.ite_none_left_eq_some, not_or] at h
  obtain ⟨⟨hnull, htrue, hfalse⟩, h⟩ := h
  split at h
  case h_1 c tail =>
    split_ifs at h with hstart
    cases h
    exact ⟨c, tail, rfl, hstart, rfl, rfl, hnull, htrue, hfalse⟩
  case h_2 => cases h

theorem isIdentPart_of_isIdentStart {c : Char} (h : isIdentStart c = true) :
    isIdentPart c = true := by
  simp only [isIdentStart, isIdentPart, Char.isAlphanum, Bool.or_eq_true] at *
  tauto

theorem ne_of_isIdentStart {c d : Char} (hc : isIdentStart c = true) (hd : isIdentStart d = false) :
    c ≠ d := by
  rintro rfl
  rw [hc] at hd
  cases hd

theorem isSpace_of_isIdentPart {c : Char} (h : isIdentPart c = true) : isSpace c = false := by
  by_contra hspace
  rw [isIdentPart_of_isSpace (by simpa using hspace)] at h
  cases h

/-- The word and what it cannot be the start of. -/
theorem Word.cases {name : Text} (h : Word name) :
    ∃ c tail, name = c :: tail ∧ isIdentStart c = true ∧ (∀ d ∈ name, isIdentPart d = true) ∧
      ¬['n', 'u', 'l', 'l'] <+: name ∧ ¬['t', 'r', 'u', 'e'] <+: name ∧
      ¬['f', 'a', 'l', 's', 'e'] <+: name := by
  obtain ⟨c, tail, rfl, hstart, hname, -, hwords⟩ := identifierAt_eq_some h
  have htail : tail = tail.takeWhile isIdentPart := (List.cons.inj hname).2
  refine ⟨c, tail, rfl, hstart, ?_, hwords⟩
  intro d hd
  obtain rfl | hd := List.mem_cons.mp hd
  · exact isIdentPart_of_isIdentStart hstart
  · rw [htail] at hd
    exact List.mem_takeWhile_imp hd

/-- A word of letters that is found across the end of a name is found in the name. -/
theorem prefix_of_prefix_append {word name rest : Text} (hword : ∀ c ∈ word, isIdentPart c = true)
    (hrest : ∀ c ∈ rest.head?, isIdentPart c = false) (h : word <+: name ++ rest) :
    word <+: name := by
  induction word generalizing name with
  | nil => exact List.nil_prefix
  | cons w word ih =>
    cases name with
    | nil =>
      cases rest with
      | nil => exact h
      | cons d rest =>
        have hwd : w = d := (List.cons_prefix_cons.mp h).1
        have := hrest d rfl
        rw [← hwd, hword w List.mem_cons_self] at this
        cases this
    | cons d name =>
      obtain ⟨hwd, htail⟩ := List.cons_prefix_cons.mp h
      exact List.cons_prefix_cons.mpr
        ⟨hwd, ih (fun c hc => hword c (List.mem_cons_of_mem _ hc)) htail⟩

theorem Word.identifierAt_append {name rest : Text} (h : Word name)
    (hrest : ∀ c ∈ rest.head?, isIdentPart c = false) :
    identifierAt (name ++ rest) = some (name, rest) := by
  obtain ⟨c, tail, rfl, hstart, hparts, hnull, htrue, hfalse⟩ := h.cases
  have hwords : ¬(['n', 'u', 'l', 'l'] <+: c :: tail ++ rest
      ∨ ['t', 'r', 'u', 'e'] <+: c :: tail ++ rest
      ∨ ['f', 'a', 'l', 's', 'e'] <+: c :: tail ++ rest) := by
    rintro (hword | hword | hword)
    · exact hnull (prefix_of_prefix_append (by simp [isIdentPart]) hrest hword)
    · exact htrue (prefix_of_prefix_append (by simp [isIdentPart]) hrest hword)
    · exact hfalse (prefix_of_prefix_append (by simp [isIdentPart]) hrest hword)
  have htail : ∀ d ∈ tail, isIdentPart d = true := fun d hd => hparts d (List.mem_cons_of_mem _ hd)
  have hstop : rest.takeWhile isIdentPart = [] ∧ rest.dropWhile isIdentPart = rest := by
    cases rest with
    | nil => exact ⟨rfl, rfl⟩
    | cons d rest => simp [hrest d rfl]
  unfold identifierAt
  rw [if_neg hwords]
  simp only [List.cons_append, if_pos hstart, List.takeWhile_append_of_pos htail,
    List.dropWhile_append_of_pos htail, hstop.1, hstop.2, List.append_nil]

theorem Word.identifier_append {name rest : Text} (h : Word name)
    (hrest : ∀ c ∈ rest.head?, isIdentPart c = false) :
    identifier (name ++ rest) = some (name, rest) := by
  obtain ⟨c, tail, hname, hstart, -⟩ := h.cases
  have hspace := isSpace_of_isIdentPart (isIdentPart_of_isIdentStart hstart)
  have hskip : skip (name ++ rest) = name ++ rest := by
    rw [hname, List.cons_append, skip_cons hspace]
  rw [identifier, hskip, h.identifierAt_append hrest]

/-- What `is_identifier` accepts is a word when no blanks stand around it. -/
theorem Word.of_isIdentifier {name : Text} (h : isIdentifier name = true) (htrim : Trimmed name) :
    Word name := by
  unfold isIdentifier at h
  split at h
  case h_1 found rest hfound =>
    have hskip : skip name = name := by
      cases name with
      | nil => rfl
      | cons c tail => exact skip_cons (htrim.1 c rfl) tail
    rw [identifier, hskip] at hfound
    obtain ⟨c, tail, rfl, hstart, rfl, hrest, hnull, htrue, hfalse⟩ := identifierAt_eq_some hfound
    have hsplit : tail = tail.takeWhile isIdentPart ++ rest := by
      rw [hrest, List.takeWhile_append_dropWhile]
    have hnil : rest = [] := by
      by_contra hne
      have hlast : (c :: tail).getLast? = rest.getLast? := by
        rw [hsplit, ← List.cons_append, List.getLast?_append_of_ne_nil _ hne]
      obtain ⟨d, hd⟩ := List.getLast?_isSome.mpr hne |> Option.isSome_iff_exists.mp
      have hspace := htrim.2 d (by rw [hlast]; exact hd)
      have hblank := List.isEmpty_iff.mp h
      have hall : ∀ e ∈ rest, isSpace e = true := List.dropWhile_eq_nil_iff.mp hblank
      rw [hall d (List.mem_of_getLast? hd)] at hspace
      cases hspace
    rw [hnil, List.append_nil] at hsplit
    unfold Word
    rw [hfound, ← hsplit, hnil]
  case h_2 => cases h

theorem Trimmed.of_identifier {text name rest : Text} (h : identifier text = some (name, rest)) :
    Trimmed name := by
  obtain ⟨c, tail, -, hstart, rfl, -, -⟩ := identifierAt_eq_some h
  have hparts : ∀ d ∈ c :: tail.takeWhile isIdentPart, isSpace d = false := by
    intro d hd
    apply isSpace_of_isIdentPart
    obtain rfl | hd := List.mem_cons.mp hd
    · exact isIdentPart_of_isIdentStart hstart
    · exact List.mem_takeWhile_imp hd
  exact ⟨fun d hd => hparts d (List.mem_of_head? hd),
    fun d hd => hparts d (List.mem_of_getLast? hd)⟩

def startsReal (name : Text) : Bool :=
  (behindWord ['n', 'a', 'n'] name).isSome || (behindWord ['i', 'n', 'f'] name).isSome

def isRealStart (c : Char) : Bool :=
  c = '+' || c = '-' || c = '.' || c.isDigit || c.toLower = 'n' || c.toLower = 'i'

theorem dropSign_cons {c : Char} (hplus : c ≠ '+') (hminus : c ≠ '-') (text : Text) :
    dropSign (c :: text) = c :: text := by
  simp [dropSign, hplus, hminus]

/-- Without a sign, digits, `nan` or `inf` in front there is no real number. -/
theorem behindReal_eq_none {c : Char} {text : Text} (hplus : c ≠ '+') (hminus : c ≠ '-')
    (hdot : c ≠ '.') (hdigit : c.isDigit = false)
    (hnan : behindWord ['n', 'a', 'n'] (c :: text) = none)
    (hinf : behindWord ['i', 'n', 'f'] (c :: text) = none) : behindReal (c :: text) = none := by
  have hnan' : behindNan (c :: text) = none := by
    rw [behindNan, hnan]
    rfl
  have hinf' : behindInf (c :: text) = none := by
    rw [behindInf, hinf]
    rfl
  simp [behindReal, dropSign_cons hplus hminus, hdigit, hnan', hinf']

theorem strictDouble_eq_none {c : Char} (hspace : isSpace c = false) (h : isRealStart c = false)
    (text : Text) : strictDouble (c :: text) = none := by
  simp only [isRealStart, Bool.or_eq_false_iff, decide_eq_false_iff_not] at h
  obtain ⟨⟨⟨⟨⟨hplus, hminus⟩, hdot⟩, hdigit⟩, hn⟩, hi⟩ := h
  rw [strictDouble, skip_cons hspace, behindReal_eq_none hplus hminus hdot hdigit]
  · rfl
  · simp [behindWord, hn]
  · simp [behindWord, hi]

theorem toLower_ne_of_isIdentPart {c w : Char} (h : isIdentPart c = false)
    (hw : w = 'n' ∨ w = 'a' ∨ w = 'i' ∨ w = 'f') : c.toLower ≠ w := by
  have hupper : ¬(c.val ≥ 'A'.val ∧ c.val ≤ 'Z'.val) := by
    intro hupper
    have : c.isUpper = true := decide_eq_true hupper
    simp [isIdentPart, Char.isAlphanum, Char.isAlpha, this] at h
  rw [Char.toLower, dif_neg hupper]
  rintro rfl
  obtain rfl | rfl | rfl | rfl := hw <;> exact absurd h (by decide)

theorem isDigit_of_isIdentStart {c : Char} (h : isIdentStart c = true) : c.isDigit = false := by
  have hA : 'A'.val.toNat = 65 := rfl
  have ha : 'a'.val.toNat = 97 := rfl
  have h9 : '9'.val.toNat = 57 := rfl
  simp only [isIdentStart, Char.isAlpha, Char.isUpper, Char.isLower, Bool.or_eq_true,
    decide_eq_true_eq, Bool.and_eq_true, UInt32.le_iff_toNat_le, ge_iff_le] at h
  simp only [Char.isDigit, Bool.and_eq_false_iff, decide_eq_false_iff_not,
    UInt32.le_iff_toNat_le, ge_iff_le]
  obtain (⟨h, -⟩ | ⟨h, -⟩) | rfl := h
  · exact .inr (by omega)
  · exact .inr (by omega)
  · decide

/-- `strict_double` finds `nan` or `inf` in the name or not at all. -/
theorem behindWord_append_eq_none {word name rest : Text}
    (hword : ∀ w ∈ word, w = 'n' ∨ w = 'a' ∨ w = 'i' ∨ w = 'f')
    (hrest : ∀ c ∈ rest.head?, isIdentPart c = false) (h : behindWord word name = none) :
    behindWord word (name ++ rest) = none := by
  induction word generalizing name with
  | nil => cases h
  | cons w word ih =>
    cases name with
    | nil =>
      cases rest with
      | nil => rfl
      | cons d rest =>
        have hne := toLower_ne_of_isIdentPart (hrest d rfl) (hword w List.mem_cons_self)
        simp only [List.nil_append, behindWord, if_neg hne]
    | cons d name =>
      simp only [behindWord, List.cons_append] at h ⊢
      split_ifs at h ⊢ with hd
      · exact ih (fun v hv => hword v (List.mem_cons_of_mem _ hv)) h
      · rfl

theorem Word.strictDouble_append {name rest : Text} (h : Word name) (hreal : startsReal name = false)
    (hrest : ∀ c ∈ rest.head?, isIdentPart c = false) : strictDouble (name ++ rest) = none := by
  obtain ⟨c, tail, rfl, hstart, -⟩ := h.cases
  have hspace := isSpace_of_isIdentPart (isIdentPart_of_isIdentStart hstart)
  simp only [startsReal, Bool.or_eq_false_iff, Option.isSome_eq_false_iff,
    Option.isNone_iff_eq_none] at hreal
  have hnan := behindWord_append_eq_none (by simp) hrest hreal.1
  have hinf := behindWord_append_eq_none (by simp) hrest hreal.2
  rw [List.cons_append] at hnan hinf
  rw [strictDouble, List.cons_append, skip_cons hspace,
    behindReal_eq_none (ne_of_isIdentStart hstart rfl) (ne_of_isIdentStart hstart rfl)
      (ne_of_isIdentStart hstart rfl) (isDigit_of_isIdentStart hstart) hnan hinf]
  rfl

theorem longLong_eq_none {c : Char} (hspace : isSpace c = false) (hplus : c ≠ '+')
    (hminus : c ≠ '-') (hdigit : c.isDigit = false) (text : Text) :
    longLong (c :: text) = none := by
  simp [longLong, skip_cons hspace, dropSign_cons hplus hminus, hdigit]

structure Digits (digits text : Text) : Prop where
  ne_nil : digits ≠ []
  isDigit : ∀ c ∈ digits, c.isDigit = true
  stop : ∀ c ∈ text.head?, c.isDigit = false

namespace Digits

variable {digits text : Text}

theorem takeWhile (h : Digits digits text) : (digits ++ text).takeWhile Char.isDigit = digits := by
  rw [List.takeWhile_append_of_pos h.isDigit]
  cases text with
  | nil => simp
  | cons c text => simp [h.stop c rfl]

theorem dropWhile (h : Digits digits text) : (digits ++ text).dropWhile Char.isDigit = text := by
  rw [List.dropWhile_append_of_pos h.isDigit]
  cases text with
  | nil => rfl
  | cons c text => simp [h.stop c rfl]

theorem dropSign (h : Digits digits text) : dropSign (digits ++ text) = digits ++ text := by
  cases digits with
  | nil => exact absurd rfl h.ne_nil
  | cons c digits =>
    have hc := h.isDigit c List.mem_cons_self
    refine dropSign_cons ?_ ?_ _ <;>
    · rintro rfl
      exact absurd hc (by decide)

theorem skip (h : Digits digits text) : skip (digits ++ text) = digits ++ text := by
  cases digits with
  | nil => exact absurd rfl h.ne_nil
  | cons c digits =>
    refine skip_cons (isSpace_of_isIdentPart ?_) _
    simp [isIdentPart, Char.isAlphanum, h.isDigit c List.mem_cons_self]

theorem behindReal (h : Digits digits text) (hfollow : Follow text) {signed : Text}
    (hsigned : Sdn.dropSign signed = digits ++ text) : behindReal signed = none := by
  have hhead := hfollow.head
  have hempty : digits.isEmpty = false := by simpa using h.ne_nil
  simp only [Sdn.behindReal, hsigned, h.takeWhile, h.dropWhile, hempty, Bool.not_false, if_true]
  cases text with
  | nil => rfl
  | cons c text =>
    obtain ⟨hpart, hdot⟩ := hhead c rfl
    have he : ¬(c = 'e' ∨ c = 'E') := by
      rintro (rfl | rfl) <;> exact absurd hpart (by decide)
    simp [he]

end Digits

theorem isDigit_of_isIdentPart {c : Char} (h : isIdentPart c = false) : c.isDigit = false := by
  simp only [isIdentPart, Char.isAlphanum, Bool.or_eq_false_iff] at h
  exact h.1.2

theorem digits_toDigits (n : Nat) {text : Text} (h : Follow text) :
    Digits (Nat.toDigits 10 n) text :=
  ⟨Nat.toDigits_ne_nil, fun _ hc => Nat.isDigit_of_mem_toDigits (by decide) (by decide) hc,
    fun c hc => isDigit_of_isIdentPart (h.head c hc).1⟩

theorem dumpBigint_cons (value : Int64) : ∃ c tail, dumpBigint value = c :: tail ∧
    isSpace c = false ∧ c ≠ '\x27' ∧ c ≠ '\x22' := by
  unfold dumpBigint
  split_ifs
  · exact ⟨'-', _, rfl, by decide, by decide, by decide⟩
  · have hdigits := digits_toDigits value.toInt.natAbs Follow.nil
    obtain ⟨c, tail, htail⟩ := List.exists_cons_of_ne_nil hdigits.ne_nil
    have hc : c.isDigit = true := hdigits.isDigit c (by rw [htail]; exact List.mem_cons_self)
    have hspace : isSpace c = false := by
      apply isSpace_of_isIdentPart
      simp [isIdentPart, Char.isAlphanum, hc]
    refine ⟨c, tail, htail, hspace, ?_, ?_⟩ <;>
    · rintro rfl
      exact absurd hc (by decide)

theorem dropSign_dumpBigint (value : Int64) {text : Text} (h : Follow text) :
    dropSign (dumpBigint value ++ text) = Nat.toDigits 10 value.toInt.natAbs ++ text := by
  unfold dumpBigint
  split_ifs
  · rfl
  · exact (digits_toDigits _ h).dropSign

theorem skip_dumpBigint (value : Int64) {text : Text} (h : Follow text) :
    skip (dumpBigint value ++ text) = dumpBigint value ++ text := by
  unfold dumpBigint
  split_ifs
  · exact skip_cons (by decide) _
  · exact (digits_toDigits _ h).skip

theorem strictDouble_dumpBigint (value : Int64) {text : Text} (h : Follow text) :
    strictDouble (dumpBigint value ++ text) = none := by
  rw [strictDouble, skip_dumpBigint value h,
    (digits_toDigits _ h).behindReal h (dropSign_dumpBigint value h)]
  rfl

theorem longLong_dumpBigint (value : Int64) {text : Text} (h : Follow text) :
    longLong (dumpBigint value ++ text) = some (value, text) := by
  have hdigits := digits_toDigits value.toInt.natAbs h
  have hnumber : (if (dumpBigint value ++ text).head? = some '-'
      then -((value.toInt.natAbs : Nat) : Int) else (value.toInt.natAbs : Nat)) = value.toInt := by
    unfold dumpBigint
    split_ifs with hneg hsign hsign
    · omega
    · exact absurd rfl hsign
    · exfalso
      obtain ⟨c, tail, htail⟩ := List.exists_cons_of_ne_nil hdigits.ne_nil
      rw [htail] at hsign
      cases hsign
      exact absurd (hdigits.isDigit '-' (by rw [htail]; simp)) (by decide)
    · omega
  have hlow := value.le_toInt
  have hhigh := value.toInt_lt
  have hempty : (Nat.toDigits 10 value.toInt.natAbs).isEmpty = false := by simp
  simp only [longLong, skip_dumpBigint value h, dropSign_dumpBigint value h, hdigits.takeWhile,
    hdigits.dropWhile, Nat.ofDigitChars_ten_toDigits, hnumber, hempty, Int64.ofInt_toInt]
  rw [if_neg (by simp; omega)]

end Memoria.Sdn

import Memoria.Sdn

namespace Memoria.Sdn

open Peg

/-! The rules read what they take from the front of the text, and the depth to which they are
unfolded does not matter: `parseValue` and `parseDeclaration` solve the equations of the grammar. -/

theorem skip_suffix (text : Text) : skip text <:+ text := List.dropWhile_suffix _

theorem token_reads {word : Text} (h : word ≠ []) : Reads (token word) := lit_reads h

theorem stringBody_suffix (quote : Char) (text : Text) : (stringBody quote text).2 <:+ text := by
  fun_induction stringBody quote text with
  | case1 => exact List.suffix_refl _
  | case2 => exact List.suffix_refl _
  | case3 => exact List.nil_suffix
  | case4 => exact List.suffix_refl _
  | case5 c d text _ _ body rest hrun ih =>
    rw [hrun] at ih
    exact (ih.trans (List.suffix_cons d text)).trans (List.suffix_cons c _)
  | case6 c d text _ _ body rest hrun ih =>
    rw [hrun] at ih
    exact ih.trans (List.suffix_cons c _)

theorem quotedWith_reads (quote : Char) : Reads (quotedWith quote) := by
  intro text body rest hrun
  simp only [quotedWith] at hrun
  have hskip := skip_suffix text
  split at hrun
  case h_1 c inner heq =>
    have hbody := stringBody_suffix quote inner
    rw [heq] at hskip
    split_ifs at hrun
    split at hrun
    case h_1 body' d rest' hbody' =>
      cases hrun
      rw [hbody'] at hbody
      have hrest : rest <:+ inner := (List.suffix_cons d rest).trans hbody
      have hlength := hskip.length_le
      refine ⟨(hrest.trans (List.suffix_cons c inner)).trans hskip, ?_⟩
      have := hrest.length_le
      simp only [List.length_cons] at hlength
      omega
    case h_2 => cases hrun
  case h_2 => cases hrun

theorem sdnString_reads : Reads sdnString :=
  Reads.or (quotedWith_reads _) (quotedWith_reads _)

theorem identifier_reads : Reads identifier := by
  intro text name rest hrun
  have hskip := skip_suffix text
  simp only [identifier, identifierAt] at hrun
  split_ifs at hrun
  split at hrun
  case h_1 c inner heq =>
    split_ifs at hrun
    cases hrun
    rw [heq] at hskip
    have hrest : inner.dropWhile isIdentPart <:+ inner := List.dropWhile_suffix _
    have hlength := hskip.length_le
    refine ⟨(hrest.trans (List.suffix_cons c inner)).trans hskip, ?_⟩
    have := hrest.length_le
    simp only [List.length_cons] at hlength
    omega
  case h_2 => cases hrun

theorem dropSign_suffix (text : Text) : dropSign text <:+ text := by
  fun_cases dropSign text with
  | case1 c text _ => exact List.suffix_cons c text
  | case2 c text _ => exact List.suffix_refl _
  | case3 => exact List.suffix_refl _

theorem behindWord_suffix {word text rest : Text} (h : behindWord word text = some rest) :
    rest <:+ text ∧ rest.length + word.length = text.length := by
  induction word generalizing text with
  | nil =>
    cases h
    exact ⟨List.suffix_refl _, rfl⟩
  | cons w word ih =>
    cases text with
    | nil => cases h
    | cons c text =>
      simp only [behindWord] at h
      split_ifs at h
      obtain ⟨hsuffix, hlength⟩ := ih h
      refine ⟨hsuffix.trans (List.suffix_cons c text), ?_⟩
      simp only [List.length_cons]
      omega

theorem behindNan_suffix {text rest : Text} (h : behindNan text = some rest) :
    rest <:+ text ∧ rest.length < text.length := by
  simp only [behindNan, Option.bind_eq_bind, Option.bind_eq_some_iff] at h
  obtain ⟨behind, hword, h⟩ := h
  obtain ⟨hsuffix, hlength⟩ := behindWord_suffix hword
  simp only [List.length_cons, List.length_nil] at hlength
  have hrest : rest <:+ behind := by
    split at h
    case h_1 inner =>
      split at h
      case h_1 d tail heq =>
        cases h
        have htail : d :: rest <:+ inner := heq ▸ List.dropWhile_suffix _
        exact ((List.suffix_cons d rest).trans htail).trans (List.suffix_cons _ _)
      case h_2 => cases h
    case h_2 =>
      cases h
      exact List.suffix_refl _
  have := hrest.length_le
  exact ⟨hrest.trans hsuffix, by omega⟩

theorem behindInf_suffix {text rest : Text} (h : behindInf text = some rest) :
    rest <:+ text ∧ rest.length < text.length := by
  simp only [behindInf, Option.bind_eq_bind, Option.bind_eq_some_iff] at h
  obtain ⟨behind, hword, h⟩ := h
  obtain ⟨hsuffix, hlength⟩ := behindWord_suffix hword
  simp only [List.length_cons, List.length_nil] at hlength
  have hrest : rest <:+ behind := by
    cases h
    cases hlong : behindWord ['i', 'n', 'i', 't', 'y'] behind with
    | none => exact List.suffix_refl _
    | some longer => exact (behindWord_suffix hlong).1
  have := hrest.length_le
  exact ⟨hrest.trans hsuffix, by omega⟩

theorem behindExponent_suffix (text : Text) : behindExponent text <:+ text := by
  fun_cases behindExponent text with
  | case1 c rest _ d digits heq _ =>
    have hsign := dropSign_suffix rest
    rw [heq] at hsign
    have hdigits : digits.dropWhile Char.isDigit <:+ digits := List.dropWhile_suffix _
    exact ((hdigits.trans (List.suffix_cons d digits)).trans hsign).trans (List.suffix_cons c rest)
  | case2 => exact List.suffix_refl _
  | case3 => exact List.suffix_refl _
  | case4 => exact List.suffix_refl _
  | case5 => exact List.suffix_refl _

theorem length_dropWhile_lt {p : Char → Bool} {text : Text} (h : (text.takeWhile p) ≠ []) :
    (text.dropWhile p).length < text.length := by
  have hsplit := congrArg List.length (List.takeWhile_append_dropWhile (p := p) (l := text))
  rw [List.length_append] at hsplit
  have := List.length_pos_iff.mpr h
  omega

theorem behindReal_suffix {text rest : Text} (h : behindReal text = some rest) :
    rest <:+ text ∧ rest.length < text.length := by
  have hsign := dropSign_suffix text
  have hdigits : (dropSign text).dropWhile Char.isDigit <:+ dropSign text :=
    List.dropWhile_suffix _
  have hsmaller : rest <:+ dropSign text ∧ rest.length < (dropSign text).length := by
    simp only [behindReal] at h
    split at h
    case h_1 special hspecial =>
      cases h
      split_ifs at hspecial
      obtain hnan | ⟨-, hinf⟩ := Option.or_eq_some_iff.mp hspecial
      · exact behindNan_suffix hnan
      · exact behindInf_suffix hinf
    case h_2 =>
      split at h
      case h_1 fraction heq =>
        split_ifs at h
        cases h
        rw [heq] at hdigits
        have hfraction : fraction.dropWhile Char.isDigit <:+ fraction := List.dropWhile_suffix _
        have hrest := (behindExponent_suffix _).trans hfraction
        have := hdigits.length_le
        have := hrest.length_le
        simp only [List.length_cons] at *
        exact ⟨(hrest.trans (List.suffix_cons _ _)).trans hdigits, by omega⟩
      case h_2 c tail _ heq =>
        split_ifs at h with hexp
        cases h
        have hlength : ((dropSign text).dropWhile Char.isDigit).length < (dropSign text).length :=
          length_dropWhile_lt (by simpa using hexp.1)
        have hrest := behindExponent_suffix ((dropSign text).dropWhile Char.isDigit)
        exact ⟨hrest.trans hdigits, hrest.length_le.trans_lt hlength⟩
      case h_3 => cases h
  exact ⟨hsmaller.1.trans hsign, hsmaller.2.trans_le hsign.length_le⟩

theorem strictDouble_reads : Reads strictDouble := by
  intro text literal rest hrun
  simp only [strictDouble, Option.map_eq_some_iff] at hrun
  obtain ⟨behind, hbehind, heq⟩ := hrun
  cases heq
  obtain ⟨hsuffix, hlength⟩ := behindReal_suffix hbehind
  have hskip := skip_suffix text
  exact ⟨hsuffix.trans hskip, hlength.trans_le hskip.length_le⟩

theorem longLong_reads : Reads longLong := by
  intro text number rest hrun
  simp only [longLong, Option.ite_none_left_eq_some] at hrun
  obtain ⟨hfit, heq⟩ := hrun
  cases heq
  have hsuffix := (dropSign_suffix (skip text)).trans (skip_suffix text)
  have hdigits : (dropSign (skip text)).dropWhile Char.isDigit <:+ dropSign (skip text) :=
    List.dropWhile_suffix _
  have hlength : ((dropSign (skip text)).dropWhile Char.isDigit).length
      < (dropSign (skip text)).length := by
    apply length_dropWhile_lt
    intro hnil
    exact hfit (.inl (by rw [hnil]; rfl))
  exact ⟨hdigits.trans hsuffix, hlength.trans_le hsuffix.length_le⟩

section Rules

variable {value value' : Parser Char Value} {declaration declaration' : Parser Char TypeDeclaration}
  {bound : Nat}

theorem comma_reads : Reads (token [',']) := token_reads (by simp)

theorem bracketed_reads {α : Type} (opening closing : Text) (hopening : opening ≠ [])
    (hclosing : closing ≠ []) {item : Parser Char α} (hitem : Reads item) :
    Reads (bracketed opening closing item) :=
  (token_reads hopening).bind fun _ =>
    (sepBy_reads comma_reads hitem).within.bindOpt [] fun items =>
      (token_reads hclosing).within.bind fun _ => Within.pure items

theorem enclosed_reads {α : Type} {opening closing : Text} (hopening : opening ≠ [])
    (hclosing : closing ≠ []) {item : Parser Char α} (hitem : Reads item) :
    Reads (enclosed opening closing item) := by
  apply Reads.or
  · exact (token_reads hopening).bind fun _ =>
      (sepBy_reads comma_reads hitem).within.bind fun items =>
        (token_reads hclosing).within.bind fun _ => Within.pure items
  · exact (token_reads hopening).bind fun _ =>
      (token_reads hclosing).within.bind fun _ => Within.pure []

theorem typeDeclaration_reads (hvalue : Reads value) (hdeclaration : Reads declaration) :
    Reads (typeDeclaration value declaration) :=
  identifier_reads.bind fun name =>
    (bracketed_reads ['<'] ['>'] (by simp) (by simp) hdeclaration).within.bindOpt [] fun params =>
      (bracketed_reads ['('] [')'] (by simp) (by simp) hvalue).within.bindOpt [] fun args =>
        Within.pure (TypeDeclaration.mk name params args)

theorem reference_reads :
    Reads fun text => (token ['#'] text).bind fun read => identifier read.2 :=
  (token_reads (by simp)).bind fun _ => identifier_reads.within

theorem typeDeclOrReference_reads (hvalue : Reads value) (hdeclaration : Reads declaration) :
    Reads (typeDeclOrReference value declaration) :=
  Reads.or ((typeDeclaration_reads hvalue hdeclaration).map Sum.inr)
    (reference_reads.map Sum.inl)

theorem typedValue_reads (hvalue : Reads value) (hdeclaration : Reads declaration) :
    Reads (typedValue value declaration) :=
  (token_reads (by simp)).bind fun _ =>
    (typeDeclOrReference_reads hvalue hdeclaration).within.bind fun type =>
      (token_reads (by simp)).within.bind fun _ =>
        hvalue.within.bind fun constructor => Within.pure (ofType type constructor)

theorem typeSuffix_reads (hvalue : Reads value) (hdeclaration : Reads declaration) :
    Reads (typeSuffix value declaration) :=
  (token_reads (by simp)).bind fun _ =>
    (typeDeclOrReference_reads hvalue hdeclaration).within

theorem sdnStringOrTypedValue_reads (hvalue : Reads value) (hdeclaration : Reads declaration) :
    Reads (sdnStringOrTypedValue value declaration) := by
  intro text result rest hrun
  simp only [sdnStringOrTypedValue, Option.bind_eq_bind, Option.bind_eq_some_iff] at hrun
  obtain ⟨⟨body, behind⟩, hbody, hrun⟩ := hrun
  obtain ⟨hsuffix, hlength⟩ := sdnString_reads _ _ _ hbody
  simp only at hrun
  split at hrun
  case h_1 type behind' htype =>
    cases hrun
    obtain ⟨htype, hlength'⟩ := typeSuffix_reads hvalue hdeclaration _ _ _ htype
    exact ⟨htype.trans hsuffix, hlength'.trans hlength⟩
  case h_2 =>
    cases hrun
    exact ⟨hsuffix, hlength⟩

theorem mapEntry_reads (hvalue : Reads value) : Reads (mapEntry value) :=
  sdnString_reads.bind fun key =>
    (token_reads (by simp)).within.bind fun _ =>
      hvalue.within.bind fun entry => Within.pure (key, entry)

theorem boolValue_reads : Reads boolValue :=
  Reads.or ((token_reads (by simp)).map fun _ => true) ((token_reads (by simp)).map fun _ => false)

theorem sdnValue_reads (hvalue : Reads value) (hdeclaration : Reads declaration) :
    Reads (sdnValue value declaration) :=
  (sdnStringOrTypedValue_reads hvalue hdeclaration).or <|
  (strictDouble_reads.map Value.double).or <|
  (longLong_reads.map Value.bigint).or <|
  ((enclosed_reads (by simp) (by simp) (mapEntry_reads hvalue)).map fun entries =>
    Value.map (putAll entries)).or <|
  ((token_reads (by simp)).map fun _ => Value.null).or <|
  ((enclosed_reads (by simp) (by simp) hvalue).map Value.array).or <|
  ((typeDeclaration_reads hvalue hdeclaration).map Value.typeDecl).or <|
  (typedValue_reads hvalue hdeclaration).or <|
  boolValue_reads.map Value.boolean

theorem bracketed_agree {α : Type} {opening closing : Text} (hopening : opening ≠ [])
    {item item' : Parser Char α} (hitem : Reads item) (hagree : Agree bound item item') :
    Agree (bound + 1) (bracketed opening closing item) (bracketed opening closing item') :=
  Agree.behind (token_reads hopening) fun _ =>
    Agree.bindOpt (sepBy_reads comma_reads hitem).within (sepBy_agree comma_reads hitem hagree) []
      fun items => Agree.refl bound fun text =>
        (token closing text).bind fun read => some (items, read.2)

theorem enclosed_agree {α : Type} {opening closing : Text} (hopening : opening ≠ [])
    {item item' : Parser Char α} (hitem : Reads item) (hagree : Agree bound item item') :
    Agree (bound + 1) (enclosed opening closing item) (enclosed opening closing item') := by
  apply Agree.or
  · exact Agree.behind (token_reads hopening) fun _ =>
      Agree.bind (sepBy_reads comma_reads hitem).within (sepBy_agree comma_reads hitem hagree)
        fun items => Agree.refl bound fun text =>
          (token closing text).bind fun read => some (items, read.2)
  · exact Agree.refl _ _

section Agreement

variable (hvalue : Reads value) (hdeclaration : Reads declaration)
  (hvalues : Agree bound value value') (hdeclarations : Agree bound declaration declaration')

include hvalue hdeclaration hvalues hdeclarations

theorem typeDeclaration_agree :
    Agree (bound + 1) (typeDeclaration value declaration)
      (typeDeclaration value' declaration') :=
  Agree.bind identifier_reads.within (Agree.refl _ _) fun name =>
    Agree.bindOpt (bracketed_reads ['<'] ['>'] (by simp) (by simp) hdeclaration).within
      (bracketed_agree (by simp) hdeclaration hdeclarations) [] fun params =>
      Agree.bindOpt (bracketed_reads ['('] [')'] (by simp) (by simp) hvalue).within
        (bracketed_agree (by simp) hvalue hvalues) [] fun args =>
        Agree.refl (bound + 1) fun text => some (TypeDeclaration.mk name params args, text)

theorem typeDeclOrReference_agree :
    Agree (bound + 1) (typeDeclOrReference value declaration)
      (typeDeclOrReference value' declaration') :=
  Agree.or ((typeDeclaration_agree hvalue hdeclaration hvalues hdeclarations).map _)
    (Agree.refl _ _)

theorem typeSuffix_agree :
    Agree (bound + 1) (typeSuffix value declaration) (typeSuffix value' declaration') :=
  Agree.bind (token_reads (by simp)).within (Agree.refl _ _) fun _ =>
    typeDeclOrReference_agree hvalue hdeclaration hvalues hdeclarations

theorem typedValue_agree :
    Agree (bound + 1) (typedValue value declaration) (typedValue value' declaration') :=
  Agree.behind (token_reads (by simp)) fun _ =>
    Agree.bind (typeDeclOrReference_reads hvalue hdeclaration).within
      ((typeDeclOrReference_agree hvalue hdeclaration hvalues hdeclarations).mono (by omega))
      fun type => Agree.bind (token_reads (by simp)).within (Agree.refl _ _) fun _ =>
        Agree.bind hvalue.within hvalues fun constructor =>
          Agree.refl bound fun text => some (ofType type constructor, text)

theorem sdnStringOrTypedValue_agree :
    Agree (bound + 1) (sdnStringOrTypedValue value declaration)
      (sdnStringOrTypedValue value' declaration') := by
  intro text htext
  simp only [sdnStringOrTypedValue, Option.bind_eq_bind]
  cases hbody : sdnString text with
  | none => rfl
  | some read =>
    have hread := (sdnString_reads text read.1 read.2 hbody).2
    simp only [Option.bind_some,
      typeSuffix_agree hvalue hdeclaration hvalues hdeclarations read.2 (by omega)]

omit hdeclaration hdeclarations in
theorem mapEntry_agree : Agree bound (mapEntry value) (mapEntry value') :=
  Agree.bind sdnString_reads.within (Agree.refl _ _) fun key =>
    Agree.bind (token_reads (by simp)).within (Agree.refl _ _) fun _ =>
      Agree.bind hvalue.within hvalues fun entry =>
        Agree.refl bound fun text => some ((key, entry), text)

theorem sdnValue_agree :
    Agree (bound + 1) (sdnValue value declaration) (sdnValue value' declaration') :=
  (sdnStringOrTypedValue_agree hvalue hdeclaration hvalues hdeclarations).or <|
  (Agree.refl _ _).or <|
  (Agree.refl _ _).or <|
  ((enclosed_agree (by simp) (mapEntry_reads hvalue) (mapEntry_agree hvalue hvalues)).map _).or <|
  (Agree.refl _ _).or <|
  ((enclosed_agree (by simp) hvalue hvalues).map _).or <|
  ((typeDeclaration_agree hvalue hdeclaration hvalues hdeclarations).map _).or <|
  (typedValue_agree hvalue hdeclaration hvalues hdeclarations).or <|
  Agree.refl _ _

end Agreement

end Rules

theorem rules_reads (depth : Nat) : Reads (rules depth).1 ∧ Reads (rules depth).2 := by
  induction depth with
  | zero => exact ⟨Reads.fail, Reads.fail⟩
  | succ depth ih => exact ⟨sdnValue_reads ih.1 ih.2, typeDeclaration_reads ih.1 ih.2⟩

/-- Depths above the length of the text give the same results on it. -/
theorem rules_agree {bound depth depth' : Nat} (h : bound < depth) (h' : bound < depth') :
    Agree bound (rules depth).1 (rules depth').1 ∧ Agree bound (rules depth).2 (rules depth').2 := by
  induction bound generalizing depth depth' with
  | zero =>
    exact ⟨(rules_reads depth).1.agree_zero (rules_reads depth').1,
      (rules_reads depth).2.agree_zero (rules_reads depth').2⟩
  | succ bound ih =>
    obtain ⟨depth, rfl⟩ := Nat.exists_eq_succ_of_ne_zero (Nat.ne_zero_of_lt h)
    obtain ⟨depth', rfl⟩ := Nat.exists_eq_succ_of_ne_zero (Nat.ne_zero_of_lt h')
    have hreads := rules_reads depth
    have hagree := ih (Nat.lt_of_succ_lt_succ h) (Nat.lt_of_succ_lt_succ h')
    exact ⟨sdnValue_agree hreads.1 hreads.2 hagree.1 hagree.2,
      typeDeclaration_agree hreads.1 hreads.2 hagree.1 hagree.2⟩

theorem parseValue_reads : Reads parseValue :=
  fun text value rest hrun => (rules_reads _).1 text value rest hrun

theorem parseDeclaration_reads : Reads parseDeclaration :=
  fun text decl rest hrun => (rules_reads _).2 text decl rest hrun

theorem parseValue_agree {depth bound : Nat} (h : bound < depth) :
    Agree bound (rules depth).1 parseValue :=
  fun text htext => (rules_agree (htext.trans_lt h) (Nat.lt_succ_self _)).1 text le_rfl

theorem parseDeclaration_agree {depth bound : Nat} (h : bound < depth) :
    Agree bound (rules depth).2 parseDeclaration :=
  fun text htext => (rules_agree (htext.trans_lt h) (Nat.lt_succ_self _)).2 text le_rfl

/-- `parseValue` is the rule over itself. -/
theorem parseValue_eq (text : Text) :
    parseValue text = sdnValue parseValue parseDeclaration text := by
  have hdepth := parseValue_agree (Nat.lt_succ_self (text.length + 1)) text (by omega)
  rw [← hdepth]
  have hreads := rules_reads (text.length + 1)
  exact sdnValue_agree hreads.1 hreads.2 (parseValue_agree (Nat.lt_succ_self _))
    (parseDeclaration_agree (Nat.lt_succ_self _)) text (Nat.le_succ _)

theorem parseDeclaration_eq (text : Text) :
    parseDeclaration text = typeDeclaration parseValue parseDeclaration text := by
  have hdepth := parseDeclaration_agree (Nat.lt_succ_self (text.length + 1)) text (by omega)
  rw [← hdepth]
  have hreads := rules_reads (text.length + 1)
  exact typeDeclaration_agree hreads.1 hreads.2 (parseValue_agree (Nat.lt_succ_self _))
    (parseDeclaration_agree (Nat.lt_succ_self _)) text (Nat.le_succ _)

end Memoria.Sdn

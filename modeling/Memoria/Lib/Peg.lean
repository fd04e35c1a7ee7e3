import Mathlib.Data.List.DropRight
import Mathlib.Data.List.Forall2
import Mathlib.Data.List.TakeWhile

namespace Memoria.Peg

/-! Parsing expressions: a parser reads a prefix of the input or fails, choice is ordered, and a
skipper drops blank symbols before every token. -/

abbrev Parser (σ α : Type) := List σ → Option (α × List σ)

variable {σ α β : Type}

def lit [DecidableEq σ] (blank : σ → Bool) (word : List σ) : Parser σ Unit := fun input =>
  let input := input.dropWhile blank
  if word <+: input then some ((), input.drop word.length) else none

def opt (parser : Parser σ α) (default : α) (input : List σ) : α × List σ :=
  (parser input).getD (default, input)

/-- Further items, each after a separator; a separator with no item behind it is left unread.
The counter bounds the number of rounds, and a round reads a symbol at least. -/
def more (separator : Parser σ Unit) (item : Parser σ α) : Nat → List σ → List α × List σ
  | 0, input => ([], input)
  | rounds + 1, input =>
    match separator input with
    | none => ([], input)
    | some (_, behind) =>
      match item behind with
      | none => ([], input)
      | some (value, rest) =>
        let (values, rest) := more separator item rounds rest
        (value :: values, rest)

def sepBy (separator : Parser σ Unit) (item : Parser σ α) : Parser σ (List α) := fun input => do
  let (value, rest) ← item input
  let (values, rest) := more separator item rest.length rest
  return (value :: values, rest)

def moreVisits {γ : Type} (separator : Parser σ Unit) (item : Parser σ α)
    (visits : List σ → List γ) : Nat → List σ → List γ
  | 0, _ => []
  | rounds + 1, input =>
    match separator input with
    | none => []
    | some (_, behind) =>
      visits behind ++
        match item behind with
        | none => []
        | some (_, rest) => moreVisits separator item visits rounds rest

def sepByVisits {γ : Type} (separator : Parser σ Unit) (item : Parser σ α)
    (visits : List σ → List γ) (input : List σ) : List γ :=
  visits input ++
    match item input with
    | none => []
    | some (_, rest) => moreVisits separator item visits rest.length rest

def Reads (parser : Parser σ α) : Prop :=
  ∀ input value rest, parser input = some (value, rest) →
    rest <:+ input ∧ rest.length < input.length

def Within (parser : Parser σ α) : Prop :=
  ∀ input value rest, parser input = some (value, rest) → rest <:+ input

def Agree (bound : Nat) (first second : Parser σ α) : Prop :=
  ∀ input, input.length ≤ bound → first input = second input

theorem Agree.mono {bound bound' : Nat} {first second : Parser σ α}
    (h : Agree bound first second) (hle : bound' ≤ bound) : Agree bound' first second :=
  fun input hinput => h input (hinput.trans hle)

section Skipping

variable {blank : σ → Bool}

theorem dropWhile_append_of_all {blanks : List σ} (h : ∀ c ∈ blanks, blank c) (rest : List σ) :
    (blanks ++ rest).dropWhile blank = rest.dropWhile blank :=
  List.dropWhile_append_of_pos h

theorem dropWhile_cons_of_not {c : σ} (h : blank c = false) (rest : List σ) :
    (c :: rest).dropWhile blank = c :: rest := by
  rw [List.dropWhile_cons_of_neg (by simp [h])]

end Skipping

section Literals

variable [DecidableEq σ] {blank : σ → Bool}

theorem lit_skip (word input : List σ) :
    lit blank word (input.dropWhile blank) = lit blank word input := by
  simp only [lit, List.dropWhile_idempotent]

theorem lit_append_blanks {blanks : List σ} (h : ∀ c ∈ blanks, blank c) (word input : List σ) :
    lit blank word (blanks ++ input) = lit blank word input := by
  simp only [lit, dropWhile_append_of_all h]

theorem lit_append {c : σ} (h : blank c = false) (word rest : List σ) :
    lit blank (c :: word) (c :: word ++ rest) = some ((), rest) := by
  simp only [lit, List.cons_append, dropWhile_cons_of_not h]
  rw [← List.cons_append, if_pos (List.prefix_append _ _), List.drop_left]

theorem lit_ne {c d : σ} (h : blank d = false) (hne : c ≠ d) (word rest : List σ) :
    lit blank (c :: word) (d :: rest) = none := by
  simp only [lit, dropWhile_cons_of_not h]
  refine if_neg fun hstart => hne ?_
  exact (List.cons_prefix_cons.mp hstart).1

theorem lit_reads {word : List σ} (h : word ≠ []) : Reads (lit blank word) := by
  intro input value rest hrun
  simp only [lit] at hrun
  split at hrun
  case isTrue hstart =>
    obtain ⟨tail, htail⟩ := hstart
    cases hrun
    have hsuffix := List.dropWhile_suffix blank (l := input)
    have hpos : 0 < word.length := List.length_pos_iff.mpr h
    have hlength : word.length + tail.length = (input.dropWhile blank).length := by
      rw [← htail, List.length_append]
    refine ⟨(List.drop_suffix _ _).trans hsuffix, ?_⟩
    rw [List.length_drop]
    have := hsuffix.length_le
    omega
  case isFalse => exact absurd hrun (by simp)

end Literals

section Combinators

variable {first first' : Parser σ α} {second second' : α → Parser σ β} {bound : Nat}

theorem Reads.within (h : Reads first) : Within first :=
  fun input value rest hrun => (h input value rest hrun).1

theorem Reads.fail : Reads fun _ : List σ => (none : Option (α × List σ)) :=
  fun _ _ _ hrun => nomatch hrun

theorem Reads.eq_none_of_nil (h : Reads first) : first [] = none := by
  cases hrun : first [] with
  | none => rfl
  | some read => exact absurd (h [] read.1 read.2 hrun).2 (Nat.not_lt_zero _)

theorem Reads.agree_zero (h : Reads first) (h' : Reads first') : Agree 0 first first' := by
  intro input hinput
  have hnil : input = [] := List.eq_nil_of_length_eq_zero (Nat.le_zero.mp hinput)
  rw [hnil, h.eq_none_of_nil, h'.eq_none_of_nil]

theorem Within.pure (value : α) : Within fun input : List σ => some (value, input) := by
  intro input value rest hrun
  cases hrun
  exact List.suffix_refl _

theorem Within.bind (hfirst : Within first) (hsecond : ∀ value, Within (second value)) :
    Within fun input => (first input).bind fun read => second read.1 read.2 := by
  intro input value rest hrun
  obtain ⟨⟨one, behind⟩, hone, htwo⟩ := Option.bind_eq_some_iff.mp hrun
  exact (hsecond one behind value rest htwo).trans (hfirst input one behind hone)

theorem Reads.bind (hfirst : Reads first) (hsecond : ∀ value, Within (second value)) :
    Reads fun input => (first input).bind fun read => second read.1 read.2 := by
  intro input value rest hrun
  obtain ⟨⟨one, behind⟩, hone, htwo⟩ := Option.bind_eq_some_iff.mp hrun
  have hbehind := hfirst input one behind hone
  have hrest := hsecond one behind value rest htwo
  exact ⟨hrest.trans hbehind.1, hrest.length_le.trans_lt hbehind.2⟩

theorem Reads.or {other : Parser σ α} (hfirst : Reads first) (hother : Reads other) :
    Reads fun input => (first input).or (other input) := by
  intro input value rest hrun
  obtain hrun | ⟨-, hrun⟩ := Option.or_eq_some_iff.mp hrun
  · exact hfirst _ _ _ hrun
  · exact hother _ _ _ hrun

theorem Reads.map (hfirst : Reads first) (f : α → β) :
    Reads fun input => (first input).map fun read => (f read.1, read.2) := by
  intro input value rest hrun
  obtain ⟨⟨one, behind⟩, hone, heq⟩ := Option.map_eq_some_iff.mp hrun
  cases heq
  exact hfirst _ _ _ hone

theorem opt_suffix (hfirst : Within first) (default : α) (input : List σ) :
    (opt first default input).2 <:+ input := by
  unfold opt
  cases hrun : first input with
  | none => exact List.suffix_refl _
  | some read => exact hfirst input read.1 read.2 hrun

theorem Within.bindOpt (hfirst : Within first) (default : α)
    (hsecond : ∀ value, Within (second value)) :
    Within fun input =>
      second (opt first default input).1 (opt first default input).2 := by
  intro input value rest hrun
  exact (hsecond _ _ value rest hrun).trans (opt_suffix hfirst default input)

theorem Agree.refl (bound : Nat) (parser : Parser σ α) : Agree bound parser parser :=
  fun _ _ => rfl

/-- Behind a part that reads, agreement is needed on shorter inputs only. -/
theorem Agree.behind (hfirst : Reads first)
    (hsecond : ∀ value, Agree bound (second value) (second' value)) :
    Agree (bound + 1) (fun input => (first input).bind fun read => second read.1 read.2)
      (fun input => (first input).bind fun read => second' read.1 read.2) := by
  intro input hinput
  simp only
  cases hrun : first input with
  | none => rfl
  | some read =>
    have hread := (hfirst input read.1 read.2 hrun).2
    exact hsecond read.1 read.2 (by omega)

theorem Agree.bind (hwithin : Within first) (hfirst : Agree bound first first')
    (hsecond : ∀ value, Agree bound (second value) (second' value)) :
    Agree bound (fun input => (first input).bind fun read => second read.1 read.2)
      (fun input => (first' input).bind fun read => second' read.1 read.2) := by
  intro input hinput
  simp only [← hfirst input hinput]
  cases hrun : first input with
  | none => rfl
  | some read =>
    have hread := (hwithin input read.1 read.2 hrun).length_le
    exact hsecond read.1 read.2 (hread.trans hinput)

theorem Agree.or {other other' : Parser σ α} (hfirst : Agree bound first first')
    (hother : Agree bound other other') :
    Agree bound (fun input => (first input).or (other input))
      (fun input => (first' input).or (other' input)) := by
  intro input hinput
  simp only [hfirst input hinput, hother input hinput]

theorem Agree.map (hfirst : Agree bound first first') (f : α × List σ → β × List σ) :
    Agree bound (fun input => (first input).map f) (fun input => (first' input).map f) := by
  intro input hinput
  simp only [hfirst input hinput]

theorem Agree.bindOpt (hwithin : Within first) (hfirst : Agree bound first first') (default : α)
    (hsecond : ∀ value, Agree bound (second value) (second' value)) :
    Agree bound
      (fun input =>
        second (opt first default input).1 (opt first default input).2)
      (fun input =>
        second' (opt first' default input).1 (opt first' default input).2) := by
  intro input hinput
  have hsame : opt first' default input = opt first default input := by
    simp only [opt, hfirst input hinput]
  simp only [hsame]
  exact hsecond _ _ ((opt_suffix hwithin default input).length_le.trans hinput)

end Combinators

section Repetition

variable {separator : Parser σ Unit} {item item' : Parser σ α}

theorem more_suffix (hsep : Reads separator) (hitem : Reads item) (rounds : Nat)
    (input : List σ) : (more separator item rounds input).2 <:+ input := by
  induction rounds generalizing input with
  | zero => exact List.suffix_refl _
  | succ rounds ih =>
    rw [more]
    split
    · exact List.suffix_refl _
    case h_2 behind hrun =>
      split
      · exact List.suffix_refl _
      case h_2 value rest hvalue =>
        exact ((ih rest).trans (hitem _ _ _ hvalue).1).trans (hsep _ _ _ hrun).1

theorem sepBy_reads (hsep : Reads separator) (hitem : Reads item) :
    Reads (sepBy separator item) := by
  intro input values rest hrun
  simp only [sepBy, Option.bind_eq_bind, Option.bind_eq_some_iff] at hrun
  obtain ⟨⟨value, behind⟩, hvalue, hrest⟩ := hrun
  cases hrest
  have hbehind := hitem _ _ _ hvalue
  have hmore := more_suffix hsep hitem behind.length behind
  exact ⟨hmore.trans hbehind.1, hmore.length_le.trans_lt hbehind.2⟩

theorem more_agree (hsep : Reads separator) (hitem : Reads item) {bound : Nat}
    (hagree : Agree bound item item') (rounds : Nat) (input : List σ)
    (hinput : input.length ≤ bound) :
    more separator item rounds input = more separator item' rounds input := by
  induction rounds generalizing input with
  | zero => rfl
  | succ rounds ih =>
    simp only [more]
    cases hrun : separator input with
    | none => rfl
    | some read =>
      obtain ⟨_, behind⟩ := read
      have hbehind := (hsep _ _ _ hrun).2
      simp only [← hagree behind (by omega)]
      cases hvalue : item behind with
      | none => rfl
      | some read =>
        obtain ⟨value, rest⟩ := read
        have hrest := (hitem _ _ _ hvalue).2
        simp only [ih rest (by omega)]

theorem sepBy_agree (hsep : Reads separator) (hitem : Reads item) {bound : Nat}
    (hagree : Agree bound item item') :
    Agree bound (sepBy separator item) (sepBy separator item') := by
  intro input hinput
  simp only [sepBy, Option.bind_eq_bind, ← hagree input hinput]
  cases hvalue : item input with
  | none => rfl
  | some read =>
    obtain ⟨value, rest⟩ := read
    have hrest := (hitem _ _ _ hvalue).2
    simp only [Option.bind_some, more_agree hsep hitem hagree rest.length rest (by omega)]

theorem more_of_none {input : List σ} (h : separator input = none) (rounds : Nat) :
    more separator item rounds input = ([], input) := by
  cases rounds with
  | zero => rfl
  | succ rounds => simp [more, h]

/-- Every value of a repetition has a property that the item gives to what it reads, unless the
repetition ends before one of the texts that the separator refuses. -/
theorem more_forall {property : α → Prop} {Stuck : List σ → Prop}
    (hitem : ∀ input value rest, item input = some (value, rest) → property value ∨ Stuck rest)
    (hstuck : ∀ rest, Stuck rest → separator rest = none) (rounds : Nat) (input : List σ) :
    (∀ value ∈ (more separator item rounds input).1, property value)
      ∨ Stuck (more separator item rounds input).2 := by
  induction rounds generalizing input with
  | zero => simp [more]
  | succ rounds ih =>
    rw [more]
    split
    · simp
    case h_2 behind _ =>
      split
      · simp
      case h_2 value rest hvalue =>
        obtain hall | hend := ih rest
        · obtain hproperty | hrest := hitem _ _ _ hvalue
          · exact .inl (List.forall_mem_cons.mpr ⟨hproperty, hall⟩)
          · refine .inr ?_
            rw [more_of_none (hstuck rest hrest)]
            exact hrest
        · exact .inr hend

theorem sepBy_forall {property : α → Prop} {Stuck : List σ → Prop}
    (hitem : ∀ input value rest, item input = some (value, rest) → property value ∨ Stuck rest)
    (hstuck : ∀ rest, Stuck rest → separator rest = none) {input rest : List σ}
    {values : List α} (hrun : sepBy separator item input = some (values, rest)) :
    (∀ value ∈ values, property value) ∨ Stuck rest := by
  simp only [sepBy, Option.bind_eq_bind, Option.bind_eq_some_iff] at hrun
  obtain ⟨⟨value, behind⟩, hvalue, hrest⟩ := hrun
  cases hrest
  obtain hproperty | hbehind := hitem _ _ _ hvalue
  · obtain hall | hend := more_forall hitem hstuck behind.length behind
    · exact .inl (List.forall_mem_cons.mpr ⟨hproperty, hall⟩)
    · exact .inr hend
  · refine .inr ?_
    simp only [more_of_none (hstuck behind hbehind)]
    exact hbehind

/-- What each item gives to its value if the texts it visits are fine, a repetition gives to all of
them. -/
theorem more_visits (hsep : Reads separator) (hreads : Reads item) {γ : Type}
    {visits : List σ → List γ} {fine : γ → Prop} {property : α → Prop} {bound : Nat}
    (hitem : ∀ input value rest, input.length ≤ bound → (∀ v ∈ visits input, fine v) →
      item input = some (value, rest) → property value) (rounds : Nat) (input : List σ)
    (hbound : input.length ≤ bound)
    (hfine : ∀ v ∈ moreVisits separator item visits rounds input, fine v) :
    ∀ value ∈ (more separator item rounds input).1, property value := by
  induction rounds generalizing input with
  | zero => simp [more]
  | succ rounds ih =>
    rw [moreVisits] at hfine
    rw [more]
    split
    · simp
    case h_2 behind hbehind =>
      have hshort := (hsep _ _ _ hbehind).2
      rw [hbehind] at hfine
      simp only [List.forall_mem_append] at hfine
      split
      · simp
      case h_2 value rest hvalue =>
        have hshorter := (hreads _ _ _ hvalue).2
        rw [hvalue] at hfine
        exact List.forall_mem_cons.mpr
          ⟨hitem _ _ _ (by omega) hfine.1 hvalue, ih rest (by omega) hfine.2⟩

theorem sepBy_visits (hsep : Reads separator) (hreads : Reads item) {γ : Type}
    {visits : List σ → List γ} {fine : γ → Prop} {property : α → Prop} {bound : Nat}
    (hitem : ∀ input value rest, input.length ≤ bound → (∀ v ∈ visits input, fine v) →
      item input = some (value, rest) → property value) {input rest : List σ} {values : List α}
    (hbound : input.length ≤ bound)
    (hfine : ∀ v ∈ sepByVisits separator item visits input, fine v)
    (hrun : sepBy separator item input = some (values, rest)) :
    ∀ value ∈ values, property value := by
  simp only [sepBy, Option.bind_eq_bind, Option.bind_eq_some_iff] at hrun
  obtain ⟨⟨value, behind⟩, hvalue, hrest⟩ := hrun
  cases hrest
  have hshort := (hreads _ _ _ hvalue).2
  rw [sepByVisits, hvalue] at hfine
  simp only [List.forall_mem_append] at hfine
  exact List.forall_mem_cons.mpr ⟨hitem _ _ _ hbound hfine.1 hvalue,
    more_visits hsep hreads hitem behind.length behind (by omega) hfine.2⟩

variable (Follow : List σ → Prop) {comma : σ}

theorem more_join (hsep : ∀ rest, separator (comma :: rest) = some ((), rest))
    (hcomma : ∀ rest, Follow (comma :: rest)) {texts : List (List σ)} {values : List α}
    (hitem : List.Forall₂
      (fun text value => ∀ rest, Follow rest → item (text ++ rest) = some (value, rest))
      texts values)
    {rest : List σ} (hrest : Follow rest) (hstop : separator rest = none) (rounds : Nat)
    (hrounds : texts.length ≤ rounds) :
    more separator item rounds ((texts.flatMap fun text => comma :: text) ++ rest)
      = (values, rest) := by
  induction hitem generalizing rounds with
  | nil => exact more_of_none hstop rounds
  | @cons text value texts values hhead _ ih =>
    cases rounds with
    | zero => simp at hrounds
    | succ rounds =>
      have hfollow : Follow ((texts.flatMap fun text => comma :: text) ++ rest) := by
        cases texts with
        | nil => exact hrest
        | cons next texts => exact hcomma _
      have htail := ih rounds (Nat.le_of_succ_le_succ hrounds)
      simp only [List.flatMap_cons, List.append_assoc, List.cons_append, more, hsep,
        hhead _ hfollow, htail]

/-- A joined list of texts is read back item by item, where each text is read back before what may
follow it. -/
theorem sepBy_join (hsep : ∀ rest, separator (comma :: rest) = some ((), rest))
    (hcomma : ∀ rest, Follow (comma :: rest)) {text : List σ} {value : α}
    {texts : List (List σ)} {values : List α}
    (hitem : List.Forall₂
      (fun text value => ∀ rest, Follow rest → item (text ++ rest) = some (value, rest))
      (text :: texts) (value :: values))
    {rest : List σ} (hrest : Follow rest) (hstop : separator rest = none) :
    sepBy separator item (text ++ ((texts.flatMap fun text => comma :: text) ++ rest))
      = some (value :: values, rest) := by
  obtain ⟨hhead, htail⟩ := List.forall₂_cons.mp hitem
  have hfollow : Follow ((texts.flatMap fun text => comma :: text) ++ rest) := by
    cases texts with
    | nil => exact hrest
    | cons next texts => exact hcomma _
  have hrounds : texts.length ≤ ((texts.flatMap fun text => comma :: text) ++ rest).length := by
    rw [List.length_append, List.length_flatMap]
    have : texts.length ≤ (texts.map fun text => (comma :: text).length).sum := by
      clear hitem htail hfollow
      induction texts with
      | nil => exact le_rfl
      | cons next texts ih =>
        simp only [List.length_cons, List.map_cons, List.sum_cons] at ih ⊢
        omega
    omega
  have hmore := more_join Follow hsep hcomma htail hrest hstop _ hrounds
  simp only [sepBy, Option.bind_eq_bind, hhead _ hfollow, Option.bind_some, hmore]
  rfl

end Repetition

end Memoria.Peg

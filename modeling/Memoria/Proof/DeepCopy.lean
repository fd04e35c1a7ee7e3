import Memoria.LinkedDocument

/-!
# What a deep copy is

A target arena only grows, so that what a view of it shows stays as it is. The specification of
`copyValue` and `copyDecl` is for any of the three modes: how a mode finds the type of a typed value
is an assumption here.
-/

namespace Memoria.LinkedDocument

open Lib
open Sdn (Text)

def View.ptr : View → ℕ
  | .value ptr | .decl ptr => ptr

section Arena

variable {arena more : Arena} {ptr : ℕ} {view : View}

theorem Arena.at?_append (h : ptr ≤ arena.length) :
    (arena ++ more : Arena).at? ptr = arena.at? ptr := by
  unfold Arena.at?
  split_ifs with hzero
  · rfl
  · exact List.getElem?_append_left (by omega)

theorem Arena.at?_push (arena : Arena) (object : Object) :
    (arena ++ [object] : Arena).at? (arena.length + 1) = some object := by
  simp [Arena.at?]

theorem Arena.le_of_at? {object : Object} (h : arena.at? ptr = some object) :
    0 < ptr ∧ ptr ≤ arena.length ∧ object ∈ arena := by
  unfold Arena.at? at h
  split_ifs at h with hzero
  obtain ⟨hlt, rfl⟩ := List.getElem?_eq_some_iff.mp h
  exact ⟨by omega, by omega, List.getElem_mem hlt⟩

theorem Arena.text_append (h : ptr ≤ arena.length) :
    (arena ++ more : Arena).text ptr = arena.text ptr := by
  unfold Arena.text
  rw [Arena.at?_append h]

theorem Arena.IsString.text (h : arena.IsString ptr) : ∃ text, arena.text ptr = some text := by
  obtain ⟨text, h⟩ := h
  exact ⟨text, by simp [Arena.text, h]⟩

theorem Arena.IsString.le (h : arena.IsString ptr) : ptr ≤ arena.length := by
  obtain ⟨text, h⟩ := h
  exact (Arena.le_of_at? h).2.1

theorem Arena.IsString.append (h : arena.IsString ptr) : (arena ++ more : Arena).IsString ptr := by
  have hle := h.le
  obtain ⟨text, h⟩ := h
  exact ⟨text, by rw [Arena.at?_append hle, h]⟩

theorem Arena.Closed.at? {object : Object} (hclosed : arena.Closed)
    (h : arena.at? ptr = some object) : ∀ q ∈ object.cell.ptrs, q ≤ arena.length :=
  hclosed object (Arena.le_of_at? h).2.2

theorem Arena.Closed.push {object : Object} (hclosed : arena.Closed)
    (h : ∀ q ∈ object.cell.ptrs, q ≤ arena.length) : Arena.Closed (arena ++ [object]) := by
  intro o ho q hq
  rw [List.length_append]
  obtain ho | ho := List.mem_append.mp ho
  · exact Nat.le_add_right_of_le (hclosed o ho q hq)
  · obtain rfl := List.mem_singleton.mp ho
    exact Nat.le_add_right_of_le (h q hq)

theorem Arena.lookDecl_append {name : ℕ} {params args : List ℕ} (h : name ≤ arena.length) :
    (arena ++ more : Arena).lookDecl name params args = arena.lookDecl name params args := by
  rw [Arena.lookDecl, Arena.text_append h, ← Arena.lookDecl]

theorem Arena.look_value {object : Object} (h : arena.at? ptr = some object) :
    arena.look (.value ptr) = arena.lookValue object := by
  have hpos := (Arena.le_of_at? h).1
  simp only [Arena.look, h, Option.bind_some]
  rw [if_neg (by omega)]

theorem Arena.look_decl {tag : Option Tag} {name : ℕ} {params args : List ℕ}
    (h : arena.at? ptr = some ⟨tag, .typeDecl name params args⟩) :
    arena.look (.decl ptr) = arena.lookDecl name params args := by
  simp only [Arena.look, h, Option.bind_some]

theorem Arena.at?_of_look_decl {seen : Kind × List View} (h : arena.look (.decl ptr) = some seen) :
    ∃ tag name params args, arena.at? ptr = some ⟨tag, .typeDecl name params args⟩ ∧
      arena.lookDecl name params args = some seen := by
  simp only [Arena.look, Option.bind_eq_some_iff] at h
  obtain ⟨⟨tag, cell⟩, hat, h⟩ := h
  cases cell with
  | typeDecl name params args => exact ⟨tag, name, params, args, hat, h⟩
  | _ => cases h

theorem Arena.lookValue_append {object : Object}
    (h : ∀ q ∈ object.cell.ptrs, q ≤ arena.length) :
    (arena ++ more : Arena).lookValue object = arena.lookValue object := by
  unfold Arena.lookValue
  split
  case h_5 name params args => exact Arena.lookDecl_append (h name List.mem_cons_self)
  all_goals rfl

theorem Arena.look_append (hclosed : arena.Closed) (h : view.ptr ≤ arena.length) :
    (arena ++ more : Arena).look view = arena.look view := by
  cases view with
  | value ptr =>
      change ptr ≤ arena.length at h
      simp only [Arena.look, Arena.at?_append h]
      split_ifs with hzero
      · rfl
      · cases hat : arena.at? ptr with
        | none => rfl
        | some object => exact Arena.lookValue_append (hclosed.at? hat)
  | decl ptr =>
      change ptr ≤ arena.length at h
      simp only [Arena.look, Arena.at?_append h]
      rcases hat : arena.at? ptr with _ | ⟨tag, cell⟩
      · rfl
      · cases cell with
        | typeDecl name params args =>
            exact Arena.lookDecl_append (hclosed.at? hat name List.mem_cons_self)
        | _ => rfl

theorem Arena.lookDecl_children {name : ℕ} {params args : List ℕ} {seen : Kind × List View}
    (h : arena.lookDecl name params args = some seen) {child : View} (hchild : child ∈ seen.2) :
    child.ptr ∈ (Cell.typeDecl name params args).ptrs := by
  obtain ⟨text, -, rfl⟩ := Option.map_eq_some_iff.mp h
  simp only [List.mem_append, List.mem_map] at hchild
  simp only [Cell.ptrs, List.mem_cons, List.mem_append]
  obtain ⟨q, hq, rfl⟩ | ⟨q, hq, rfl⟩ := hchild
  · exact .inr (.inl hq)
  · exact .inr (.inr hq)

theorem Arena.lookValue_children {object : Object} {seen : Kind × List View}
    (h : arena.lookValue object = some seen) {child : View} (hchild : child ∈ seen.2) :
    child.ptr ∈ object.cell.ptrs := by
  unfold Arena.lookValue at h
  split at h
  case h_5 => exact Arena.lookDecl_children h hchild
  case h_7 => cases h
  all_goals cases h
  · cases hchild
  · cases hchild
  · obtain ⟨q, hq, rfl⟩ := List.mem_map.mp hchild
    exact hq
  · obtain ⟨entry, hentry, hchild⟩ := List.mem_flatMap.mp hchild
    refine List.mem_flatMap.mpr ⟨entry, hentry, ?_⟩
    simp only [List.mem_cons, List.not_mem_nil, or_false] at hchild ⊢
    obtain rfl | rfl := hchild
    · exact .inl rfl
    · exact .inr rfl
  · simp only [List.mem_cons, List.not_mem_nil, or_false] at hchild
    obtain rfl | rfl := hchild
    · exact List.mem_cons_self
    · exact List.mem_cons_of_mem _ List.mem_cons_self

theorem Arena.Closed.hangs (hclosed : arena.Closed) {child : View}
    (h : Hangs arena.look view child) : child.ptr ≤ arena.length := by
  obtain ⟨seen, hseen, hchild⟩ := h
  cases view with
  | value ptr =>
      simp only [Arena.look] at hseen
      split_ifs at hseen with hzero
      · cases hseen
        cases hchild
      · obtain ⟨object, hat, hseen⟩ := Option.bind_eq_some_iff.mp hseen
        exact hclosed.at? hat _ (Arena.lookValue_children hseen hchild)
  | decl ptr =>
      obtain ⟨tag, name, params, args, hat, hseen⟩ := Arena.at?_of_look_decl hseen
      exact hclosed.at? hat _ (Arena.lookDecl_children hseen hchild)

theorem Arena.unroll_append (hclosed : arena.Closed) (h : view.ptr ≤ arena.length) (n : ℕ) :
    unroll (arena ++ more : Arena).look n view = unroll arena.look n view :=
  unroll_congr (P := fun view => view.ptr ≤ arena.length)
    (fun _ hview => Arena.look_append hclosed hview)
    (fun _ _ _ hchild => hclosed.hangs hchild) h n

theorem Arena.standsFor_append {tree : Lib.Tree Kind} (hclosed : arena.Closed)
    (h : view.ptr ≤ arena.length) :
    StandsFor (arena ++ more : Arena).look view tree ↔ StandsFor arena.look view tree := by
  simp only [StandsFor, Arena.unroll_append hclosed h]

/-- A view that shows something is of an object in the arena. -/
theorem Arena.le_of_look {seen : Kind × List View} (h : arena.look view = some seen) :
    view.ptr ≤ arena.length := by
  by_contra hlt
  have hat : arena.at? view.ptr = none := by
    cases hat : arena.at? view.ptr with
    | none => rfl
    | some object => exact absurd (Arena.le_of_at? hat).2.1 hlt
  cases view with
  | value ptr =>
      have hzero : ptr ≠ 0 := fun hzero => hlt (by simp [View.ptr, hzero])
      simp only [View.ptr] at hat
      simp [Arena.look, hzero, hat] at h
  | decl ptr =>
      simp only [View.ptr] at hat
      simp [Arena.look, hat] at h

theorem Arena.le_of_standsFor {tree : Lib.Tree Kind} (h : StandsFor arena.look view tree) :
    view.ptr ≤ arena.length := by
  obtain ⟨n, h⟩ := h
  cases n with
  | zero => cases h
  | succ n =>
      obtain ⟨_, _, _, hseen, -⟩ := unroll_succ_eq_some.mp h
      exact Arena.le_of_look hseen

theorem Arena.lookPast_value (passed : ℕ → Bool)
    (h : ∀ type value, arena.at? ptr ≠ some ⟨some .typedValue, .typedValue type value⟩) :
    arena.lookPast passed (.value ptr) = arena.look (.value ptr) := by
  simp only [Arena.lookPast]

theorem Arena.lookPast_typedValue (passed : ℕ → Bool) {type value : ℕ}
    (h : arena.at? ptr = some ⟨some .typedValue, .typedValue type value⟩) :
    arena.lookPast passed (.value ptr) = some (.typedValue,
      if passed type then [.value value] else [.decl type, .value value]) := by
  simp only [Arena.lookPast, h, Arena.look_value h, Arena.lookValue]
  split_ifs <;> rfl

/-- Where no type is passed over, all is seen. -/
theorem Arena.lookPast_none (arena : Arena) : arena.lookPast (fun _ => false) = arena.look := by
  funext view
  cases view with
  | decl ptr => rfl
  | value ptr =>
      simp only [Arena.lookPast]
      split
      case h_1 => rfl
      case h_2 => rfl

theorem Arena.hangs_of_lookPast {passed : ℕ → Bool} {child : View}
    (h : Hangs (arena.lookPast passed) view child) : Hangs arena.look view child := by
  obtain ⟨seen, hseen, hchild⟩ := h
  cases view with
  | decl ptr => exact ⟨seen, hseen, hchild⟩
  | value ptr =>
      simp only [Arena.lookPast] at hseen
      split at hseen
      case h_2 => exact ⟨seen, hseen, hchild⟩
      case h_1 type value hat =>
          split_ifs at hseen
          · cases hseen
            refine ⟨(.typedValue, [.decl type, .value value]), ?_,
              List.mem_cons_of_mem _ hchild⟩
            rw [Arena.look_value hat, Arena.lookValue]
          · exact ⟨seen, hseen, hchild⟩

theorem Arena.reached_of_lookPast {passed : ℕ → Bool} {child : View}
    (h : Relation.ReflTransGen (Hangs (arena.lookPast passed)) view child) :
    Relation.ReflTransGen (Hangs arena.look) view child :=
  Relation.ReflTransGen.mono (fun _ _ => Arena.hangs_of_lookPast) _ _ h

end Arena

structure Grows (copying copying' : Copying) : Prop where
  arena : ∃ more, copying'.tgt.arena = copying.tgt.arena ++ more
  typeDirectory : copying'.tgt.typeDirectory = copying.tgt.typeDirectory
  copyingType : copying'.mapping.copyingType = copying.mapping.copyingType
  typeNames : copying'.mapping.typeNames = copying.mapping.typeNames
  typesByData : copying'.mapping.typesByData = copying.mapping.typesByData
  ptrs : ∀ ptr, copying.mapping.ptrs ptr ≠ none → copying'.mapping.ptrs ptr ≠ none

structure Extends (copying copying' : Copying) : Prop where
  arena : ∃ more, copying'.tgt.arena = copying.tgt.arena ++ more
  types : ∀ data, copying.mapping.typesByData data ≠ none →
    copying'.mapping.typesByData data ≠ none

theorem Extends.refl (copying : Copying) : Extends copying copying :=
  ⟨⟨[], (List.append_nil _).symm⟩, fun _ h => h⟩

theorem Extends.trans {a b c : Copying} (hab : Extends a b) (hbc : Extends b c) : Extends a c := by
  obtain ⟨⟨more, hb⟩, htypes⟩ := hab
  obtain ⟨⟨more', hc⟩, htypes'⟩ := hbc
  exact ⟨⟨more ++ more', by rw [hc, hb, List.append_assoc]⟩,
    fun data hdata => htypes' data (htypes data hdata)⟩

/-- The arena and the mapping of types stay as they are. -/
theorem Extends.of_same {copying copying' : Copying}
    (harena : copying'.tgt.arena = copying.tgt.arena)
    (htypes : copying'.mapping.typesByData = copying.mapping.typesByData) :
    Extends copying copying' :=
  ⟨⟨[], by rw [harena, List.append_nil]⟩, fun _ h => by rwa [htypes]⟩

section Extends

variable {copying copying' : Copying}

theorem Grows.extends (h : Grows copying copying') : Extends copying copying' :=
  ⟨h.arena, fun _ hdata => by rwa [h.typesByData]⟩

theorem Extends.at? {object : Object} {ptr : ℕ} (hext : Extends copying copying')
    (h : copying.tgt.arena.at? ptr = some object) : copying'.tgt.arena.at? ptr = some object := by
  obtain ⟨more, hmore⟩ := hext.arena
  rw [hmore, Arena.at?_append (Arena.le_of_at? h).2.1, h]

theorem Extends.length_le (hext : Extends copying copying') :
    copying.tgt.arena.length ≤ copying'.tgt.arena.length := by
  obtain ⟨more, hmore⟩ := hext.arena
  rw [hmore, List.length_append]
  exact Nat.le_add_right _ _

theorem Extends.unroll {view : View} (hext : Extends copying copying')
    (hclosed : copying.tgt.arena.Closed) (hview : view.ptr ≤ copying.tgt.arena.length) (n : ℕ) :
    Lib.unroll copying'.tgt.arena.look n view = Lib.unroll copying.tgt.arena.look n view := by
  obtain ⟨more, hmore⟩ := hext.arena
  rw [hmore, Arena.unroll_append hclosed hview]

end Extends

theorem Fits.imp {arena : Arena} {fits fits' : ℕ → Prop} {view : View}
    (himp : ∀ type, fits type → fits' type) (h : Fits arena fits view) : Fits arena fits' view := by
  cases view with
  | decl ptr => trivial
  | value ptr =>
      simp only [Fits] at h ⊢
      split at h
      case h_1 => exact h
      case h_2 type _ _ => exact himp type h
      case h_3 => trivial

structure Rules where
  src : Document
  passed : ℕ → Bool
  reached : View → Prop
  fits : ℕ → Prop
  fits' : Copying → ℕ → Prop
  tight : Prop
  fits'_extends : ∀ copying copying' type, Extends copying copying' → fits' copying type →
    fits' copying' type

namespace Rules

variable (rules : Rules)

def Ok (fits : ℕ → Prop) (view : View) : Prop :=
  Everywhere (rules.src.arena.lookPast rules.passed) (Fits rules.src.arena fits) view

structure CopyOf (copying : Copying) (a b : View) : Prop where
  copies : rules.Ok rules.fits a → Copies rules.src.arena.look copying.tgt.arena.look a b
  only : rules.tight → Matches rules.src.arena.look copying.tgt.arena.look a b →
    rules.Ok (rules.fits' copying) a

structure Mapped (copying : Copying) (source target : ℕ) : Prop where
  le : target ≤ copying.tgt.arena.length
  value : rules.reached (.value source) → rules.CopyOf copying (.value source) (.value target)
  decl : rules.fits source →
    (rules.passed source = false → rules.Ok rules.fits (.decl source)) →
    Copies rules.src.arena.look copying.tgt.arena.look (.decl source) (.decl target)
  onlyDecl : rules.tight →
    Matches rules.src.arena.look copying.tgt.arena.look (.decl source) (.decl target) →
    rules.fits' copying source ∧
      (rules.passed source = false → rules.Ok (rules.fits' copying) (.decl source))

variable {rules} {copying copying' : Copying} {a b : View} {source target : ℕ}

theorem Ok.imp {fits fits' : ℕ → Prop} (himp : ∀ type, fits type → fits' type)
    (h : rules.Ok fits a) : rules.Ok fits' a :=
  Everywhere.imp (fun _ => Fits.imp himp) h

/-- Where no type is passed over, the condition is one on all that is seen. -/
theorem ok_iff_copyOk {fits : ℕ → Prop} (hpassed : rules.passed = fun _ => false) :
    rules.Ok fits a ↔ CopyOk rules.src.arena fits a := by
  rw [Ok, CopyOk, hpassed, Arena.lookPast_none]

theorem CopyOf.extends (h : rules.CopyOf copying a b) (hclosed : copying.tgt.arena.Closed)
    (hb : b.ptr ≤ copying.tgt.arena.length) (hext : Extends copying copying') :
    rules.CopyOf copying' a b where
  copies hok n tree htree := by
    rw [hext.unroll hclosed hb]
    exact h.copies hok n tree htree
  only htight hmatches := by
    obtain ⟨tree, ha, m, hm⟩ := hmatches
    rw [hext.unroll hclosed hb] at hm
    exact (h.only htight ⟨tree, ha, m, hm⟩).imp fun type =>
      rules.fits'_extends copying copying' type hext

theorem Mapped.extends (h : rules.Mapped copying source target)
    (hclosed : copying.tgt.arena.Closed) (hext : Extends copying copying') :
    rules.Mapped copying' source target where
  le := h.le.trans hext.length_le
  value hreached := (h.value hreached).extends hclosed h.le hext
  decl hfits hok n tree htree := by
    have hle : (View.decl target).ptr ≤ copying.tgt.arena.length := h.le
    rw [hext.unroll hclosed hle]
    exact h.decl hfits hok n tree htree
  onlyDecl htight hmatches := by
    have hle : (View.decl target).ptr ≤ copying.tgt.arena.length := h.le
    obtain ⟨tree, ha, m, hm⟩ := hmatches
    rw [hext.unroll hclosed hle] at hm
    obtain ⟨hfits, hok⟩ := h.onlyDecl htight ⟨tree, ha, m, hm⟩
    exact ⟨rules.fits'_extends copying copying' source hext hfits, fun hpassed =>
      (hok hpassed).imp fun type => rules.fits'_extends copying copying' type hext⟩

section Node

variable {kind : Kind} {parts parts' : List View}

/-- An object with copies of the parts. -/
theorem CopyOf.node (ha : rules.src.arena.look a = some (kind, parts))
    (hpast : rules.src.arena.lookPast rules.passed a = rules.src.arena.look a)
    (hb : copying.tgt.arena.look b = some (kind, parts'))
    (hfits : rules.tight → Fits rules.src.arena (rules.fits' copying) a)
    (hparts : List.Forall₂ (rules.CopyOf copying) parts parts') : rules.CopyOf copying a b where
  copies hok := by
    refine Copies.node ha hb ?_
    have hbelow : ∀ part ∈ parts, rules.Ok rules.fits part :=
      fun part hpart => hok.below ⟨_, hpast.trans ha, hpart⟩
    clear ha hb hpast
    induction hparts with
    | nil => exact .nil
    | cons hpart _ ih =>
        exact .cons (hpart.copies (hbelow _ List.mem_cons_self))
          (ih fun part hpart => hbelow part (List.mem_cons_of_mem _ hpart))
  only htight hmatches := by
    obtain ⟨-, hmatches⟩ := hmatches.children ha hb
    refine everywhere_of_below (hfits htight) ?_
    rintro part ⟨seen, hseen, hpart⟩
    obtain rfl : seen = (kind, parts) := Option.some.inj (hseen.symm.trans (hpast.trans ha))
    clear ha hb hpast hseen
    induction hparts with
    | nil => cases hpart
    | cons hcopy _ ih =>
        obtain ⟨hfirst, hrest⟩ := List.forall₂_cons.mp hmatches
        obtain rfl | hpart := List.mem_cons.mp hpart
        · exact hcopy.only htight hfirst
        · exact ih hrest hpart

theorem CopyOf.of_look_none (ha : rules.src.arena.look a = none) : rules.CopyOf copying a b where
  copies _ := .of_look_none ha
  only _ hmatches := by
    obtain ⟨⟨seen, hseen⟩, -⟩ := hmatches.look_isSome
    rw [ha] at hseen
    cases hseen

/-- The copy of an object that is no declaration. -/
theorem Mapped.of_value (hle : target ≤ copying.tgt.arena.length)
    (hvalue : rules.CopyOf copying (.value source) (.value target))
    (hdecl : rules.src.arena.look (.decl source) = none) :
    rules.Mapped copying source target where
  le := hle
  value _ := hvalue
  decl _ _ := .of_look_none hdecl
  onlyDecl htight hmatches := by
    obtain ⟨⟨seen, hseen⟩, -⟩ := hmatches.look_isSome
    rw [hdecl] at hseen
    cases hseen

/-- A declaration that stands as a value is not copied right: the target is the null pointer, or its
tag is unset. -/
theorem CopyOf.of_decl {seen : Kind × List View}
    (hdecl : rules.src.arena.look (.decl source) = some seen)
    (htarget : rules.tight →
      target = 0 ∨ ∃ cell, copying.tgt.arena.at? target = some ⟨none, cell⟩) :
    rules.CopyOf copying (.value source) (.value target) := by
  obtain ⟨tag, name, params, args, hat, hseen⟩ := Arena.at?_of_look_decl hdecl
  by_cases htag : tag = some .typeDecl
  · subst htag
    have hlook : rules.src.arena.look (.value source) = some seen := by
      rw [Arena.look_value hat]
      exact hseen
    obtain ⟨text, -, rfl⟩ := Option.map_eq_some_iff.mp hseen
    constructor
    · intro hok
      have hfits := hok.here
      simp only [Fits, hat] at hfits
    · intro htight hmatches
      obtain ⟨-, ⟨seen', hseen'⟩⟩ := hmatches.look_isSome
      obtain rfl | ⟨cell, hcell⟩ := htarget htight
      · have hnull : copying.tgt.arena.look (.value 0) = some (.null, []) := rfl
        obtain ⟨hkind, -⟩ := hmatches.children hlook hnull
        cases hkind
      · rw [Arena.look_value hcell] at hseen'
        simp [Arena.lookValue] at hseen'
  · refine .of_look_none ?_
    rw [Arena.look_value hat]
    unfold Arena.lookValue
    split
    case h_5 heq =>
        cases heq
        exact absurd rfl htag
    case h_7 => rfl
    all_goals
      rename_i heq
      cases heq

/-- The copy of a declaration, in the place of the declaration. -/
theorem Mapped.of_decl {seen : Kind × List View} {cell : Cell}
    (hseen : rules.src.arena.look (.decl source) = some seen)
    (hcell : copying.tgt.arena.at? target = some ⟨none, cell⟩)
    (hpassed : rules.fits source → rules.passed source = false)
    (hfits : rules.tight → rules.fits' copying source)
    (hcopy : rules.CopyOf copying (.decl source) (.decl target)) :
    rules.Mapped copying source target where
  le := (Arena.le_of_at? hcell).2.1
  value _ := .of_decl hseen fun _ => .inr ⟨cell, hcell⟩
  decl hfits hok := hcopy.copies (hok (hpassed hfits))
  onlyDecl htight hmatches := ⟨hfits htight, fun _ => hcopy.only htight hmatches⟩

/-- The copy of a string is a string. -/
theorem Mapped.at?_of_string {text : Text} (h : rules.Mapped copying source target)
    (hreached : rules.reached (.value source))
    (hat : rules.src.arena.at? source = some ⟨some .varchar, .varchar text⟩) :
    copying.tgt.arena.at? target = some ⟨some .varchar, .varchar text⟩ := by
  have hlook : rules.src.arena.look (.value source) = some (.varchar text, []) := by
    rw [Arena.look_value hat]
    rfl
  have hok : rules.Ok rules.fits (.value source) := by
    refine everywhere_of_below (by simp only [Fits, hat]) ?_
    intro part hpart
    obtain ⟨seen, hseen, hpart⟩ := Arena.hangs_of_lookPast hpart
    obtain rfl := Option.some.inj (hseen.symm.trans hlook)
    cases hpart
  have htree : unroll rules.src.arena.look 1 (.value source)
      = some (.node (.varchar text) []) :=
    unroll_succ_eq_some.mpr ⟨_, _, [], hlook, .nil, rfl⟩
  obtain ⟨kind, parts, trees, hseen, htrees, heq⟩ :=
    unroll_succ_eq_some.mp ((h.value hreached).copies hok 1 _ htree)
  obtain ⟨rfl, rfl⟩ : kind = .varchar text ∧ trees = [] := by simpa [eq_comm] using heq
  simp only [Arena.look] at hseen
  split_ifs at hseen with hzero
  · cases hseen
  · obtain ⟨object, hobject, hseen⟩ := Option.bind_eq_some_iff.mp hseen
    rw [hobject]
    unfold Arena.lookValue at hseen
    split at hseen
    case h_2 =>
        cases hseen
        rfl
    case h_5 =>
        obtain ⟨_, -, heq⟩ := Option.map_eq_some_iff.mp hseen
        cases heq
    all_goals cases hseen

end Node

end Rules

structure Setting extends Rules where
  extra : Copying → Prop
  reached_hangs : ∀ a c, reached a → Hangs (src.arena.lookPast passed) a c → reached c
  passed_value : ∀ ptr cell, reached (.value ptr) →
    src.arena.at? ptr = some ⟨some .typeDecl, cell⟩ → fits ptr → passed ptr = false
  fits_value : ∀ copying ptr, reached (.value ptr) → fits' copying ptr
  extra_grows : ∀ copying copying', copying.tgt.arena.Closed → Grows copying copying' →
    extra copying → extra copying'

namespace Setting

variable (setting : Setting)

structure Sound (copying : Copying) : Prop where
  closed : copying.tgt.arena.Closed
  strings : ∀ ptr ∈ copying.tgt.strings, copying.tgt.arena.IsString ptr
  mapped : ∀ source target, copying.mapping.ptrs source = some target →
    setting.Mapped copying source target
  extra : setting.extra copying

variable {setting} {copying copying' : Copying} {source target : ℕ}

open Rules

theorem Sound.allocate (h : setting.Sound copying) {o : Object}
    (hptrs : ∀ ptr ∈ o.cell.ptrs, ptr ≤ copying.tgt.arena.length) :
    setting.Sound (copying.allocate o).2 ∧ Extends copying (copying.allocate o).2 ∧
      (copying.allocate o).2.tgt.arena.at? (copying.allocate o).1 = some o := by
  have hgrows : Grows copying (copying.allocate o).2 :=
    ⟨⟨[o], rfl⟩, rfl, rfl, rfl, rfl, fun _ h => h⟩
  have hext : Extends copying (copying.allocate o).2 := ⟨⟨[o], rfl⟩, fun _ h => h⟩
  refine ⟨⟨h.closed.push hptrs, ?_, ?_, setting.extra_grows _ _ h.closed hgrows h.extra⟩, hext,
    Arena.at?_push _ _⟩
  · intro ptr hptr
    exact (h.strings ptr hptr).append
  · intro source target htarget
    exact (h.mapped source target htarget).extends h.closed hext

theorem Sound.newVarchar (h : setting.Sound copying) (text : Text) :
    setting.Sound (copying.newVarchar text).2 ∧ Extends copying (copying.newVarchar text).2 ∧
      (copying.newVarchar text).2.tgt.arena.at? (copying.newVarchar text).1
        = some ⟨some .varchar, .varchar text⟩ := by
  cases hshared : copying.tgt.isShared text with
  | none =>
      have hnew : copying.newVarchar text = copying.allocate ⟨some .varchar, .varchar text⟩ := by
        simp only [Copying.newVarchar, Document.newVarchar, hshared, Copying.allocate]
      rw [hnew]
      exact h.allocate (by simp [Cell.ptrs])
  | some ptr =>
      have hnew : copying.newVarchar text = (ptr, copying) := by
        simp only [Copying.newVarchar, Document.newVarchar, hshared]
      rw [hnew]
      refine ⟨h, .refl copying, ?_⟩
      obtain ⟨shared, hat⟩ := h.strings ptr (List.mem_of_find?_eq_some hshared)
      have htext := List.find?_some hshared
      simp only [decide_eq_true_eq, Arena.text, hat, Option.some.injEq] at htext
      rw [hat, htext]

theorem Sound.mapPtrs (h : setting.Sound copying)
    (hmapped : setting.Mapped copying source target) :
    setting.Sound (copying.mapPtrs source target) := by
  have hgrows : Grows copying (copying.mapPtrs source target) := by
    refine ⟨⟨[], (List.append_nil _).symm⟩, rfl, rfl, rfl, rfl, fun ptr hptr => ?_⟩
    simp only [Copying.mapPtrs, Function.update_apply]
    split_ifs
    · exact Option.some_ne_none target
    · exact hptr
  have hext : Extends copying (copying.mapPtrs source target) := .of_same rfl rfl
  refine ⟨h.closed, h.strings, ?_, setting.extra_grows _ _ h.closed hgrows h.extra⟩
  intro source' target' hptr
  simp only [Copying.mapPtrs, Function.update_apply] at hptr
  split_ifs at hptr with heq
  · cases hptr
    rw [heq]
    exact hmapped.extends h.closed hext
  · exact (h.mapped source' target' hptr).extends h.closed hext

/-- Copies one after the other, each with an outcome that what follows does not change. -/
theorem copyAll_spec {α β : Type} {copy : α → Copying → Option (β × Copying)}
    (Post : Copying → α → β → Prop) {items : List α}
    (hpost : ∀ copying copying' a b, copying.tgt.arena.Closed → Extends copying copying' →
      Post copying a b → Post copying' a b)
    (hcopy : ∀ a ∈ items, ∀ copying, setting.Sound copying → ∃ b copying',
      copy a copying = some (b, copying') ∧ setting.Sound copying' ∧ Extends copying copying' ∧
        Post copying' a b)
    (h : setting.Sound copying) :
    ∃ bs copying', copyAll copy items copying = some (bs, copying') ∧ setting.Sound copying' ∧
      Extends copying copying' ∧ List.Forall₂ (Post copying') items bs := by
  induction items generalizing copying with
  | nil => exact ⟨[], copying, rfl, h, .refl copying, .nil⟩
  | cons a items ih =>
      obtain ⟨b, first, hfirst, hsound, hext, hb⟩ := hcopy a List.mem_cons_self copying h
      obtain ⟨bs, last, hrest, hlast, hext', hbs⟩ :=
        ih (fun c hc => hcopy c (List.mem_cons_of_mem a hc)) hsound
      refine ⟨b :: bs, last, ?_, hlast, hext.trans hext', .cons ?_ hbs⟩
      · simp only [copyAll, hfirst, Option.bind_eq_bind, Option.bind_some, hrest, Option.pure_def]
      · exact hpost _ _ _ _ hsound.closed hext' hb

section Specs

variable (setting) (standardString : Document → ℕ → Text)

def DeclSpec (depth : ℕ) : Prop :=
  ∀ ptr tree copying, setting.Sound copying →
    (∀ part, Hangs setting.src.arena.look (.decl ptr) part → setting.reached part) →
    unroll setting.src.arena.look depth (.decl ptr) = some tree →
    ∃ target copying', copyDecl standardString setting.src depth ptr copying
        = some (target, copying') ∧ setting.Sound copying' ∧ Extends copying copying' ∧
      (∃ cell, copying'.tgt.arena.at? target = some ⟨none, cell⟩) ∧
      setting.CopyOf copying' (.decl ptr) (.decl target)

def ValueSpec (depth : ℕ) : Prop :=
  ∀ ptr tree copying, setting.Sound copying → setting.reached (.value ptr) →
    unroll setting.src.arena.look depth (.value ptr) = some tree →
    ∃ target copying', copyValue standardString setting.src depth ptr copying
        = some (target, copying') ∧ setting.Sound copying' ∧ Extends copying copying' ∧
      setting.Mapped copying' ptr target

def ResolveSpec : Prop :=
  ∀ depth source type value tree copying, setting.DeclSpec standardString depth →
    setting.Sound copying → copying.mapping.ptrs type = none →
    setting.src.arena.at? source = some ⟨some .typedValue, .typedValue type value⟩ →
    setting.reached (.value source) →
    (setting.passed type = false → setting.reached (.decl type)) →
    unroll setting.src.arena.look depth (.decl type) = some tree →
    ∃ target copying', resolveType standardString setting.src
        (copyDecl standardString setting.src depth type) type copying = some (target, copying') ∧
      setting.Sound (copying'.mapPtrs type target) ∧ Extends copying copying' ∧
      setting.Mapped copying' type target

end Specs

/-- Whether or not it was copied before, a copy of the object is there afterwards, and all earlier
copies are kept. -/
theorem deepCopy_spec (copy : ℕ → Copying → Option (ℕ × Copying)) (source : ℕ)
    (hcopy : copying.mapping.ptrs source = none → ∃ target copying',
      copy source copying = some (target, copying') ∧
        setting.Sound (copying'.mapPtrs source target) ∧ Extends copying copying' ∧
        setting.Mapped copying' source target)
    (h : setting.Sound copying) :
    ∃ target copying', deepCopy copy source copying = some (target, copying') ∧
      setting.Sound copying' ∧ Extends copying copying' ∧
      setting.Mapped copying' source target := by
  cases hptr : copying.mapping.ptrs source with
  | some target =>
      refine ⟨target, copying, ?_, h, .refl copying, h.mapped source target hptr⟩
      simp only [deepCopy, hptr]
  | none =>
      obtain ⟨target, copying', hrun, hsound, hext, hmapped⟩ := hcopy hptr
      have hmapping : Extends copying' (copying'.mapPtrs source target) := .of_same rfl rfl
      refine ⟨target, copying'.mapPtrs source target, ?_, hsound, hext.trans hmapping,
        hmapped.extends hsound.closed hmapping⟩
      simp only [deepCopy, hptr, hrun, Option.map_some]

/-- `deepCopy` of values. -/
theorem ValueSpec.deepCopy {standardString : Document → ℕ → Text} {depth ptr : ℕ}
    {tree : Lib.Tree Kind} (hspec : setting.ValueSpec standardString depth) (h : setting.Sound copying)
    (hreached : setting.reached (.value ptr))
    (htree : unroll setting.src.arena.look depth (.value ptr) = some tree) :
    ∃ target copying', deepCopy (copyValue standardString setting.src depth) ptr copying
        = some (target, copying') ∧ setting.Sound copying' ∧ Extends copying copying' ∧
      setting.Mapped copying' ptr target := by
  refine deepCopy_spec _ ptr (fun _ => ?_) h
  obtain ⟨target, copying', hrun, hsound, hext, hmapped⟩ :=
    hspec ptr tree copying h hreached htree
  exact ⟨target, copying', hrun, hsound.mapPtrs hmapped, hext, hmapped⟩

/-- An object is placed in the target once its parts are there. -/
theorem Sound.place (source : ℕ) {o : Object} {kind : Kind} {parts' : List View}
    (h : setting.Sound copying) (hptrs : ∀ ptr ∈ o.cell.ptrs, ptr ≤ copying.tgt.arena.length)
    (hlook : copying.tgt.arena.lookValue o = some (kind, parts'))
    (hdecl : setting.src.arena.look (.decl source) = none)
    (hcopy : ∀ (copying' : Copying) (b : View), Extends copying copying' →
      copying'.tgt.arena.look b = some (kind, parts') →
      setting.CopyOf copying' (.value source) b) :
    setting.Sound (copying.allocate o).2 ∧ Extends copying (copying.allocate o).2 ∧
      setting.Mapped (copying.allocate o).2 source (copying.allocate o).1 := by
  obtain ⟨hsound, hext, hat⟩ := h.allocate hptrs
  refine ⟨hsound, hext, .of_value (Arena.le_of_at? hat).2.1 (hcopy _ _ hext ?_) hdecl⟩
  rw [Arena.look_value hat]
  obtain ⟨more, hmore⟩ := hext.arena
  rw [hmore, Arena.lookValue_append hptrs]
  exact hlook

section Induction

variable {standardString : Document → ℕ → Text} {depth : ℕ}

theorem declSpec_succ (hdecl : setting.DeclSpec standardString depth)
    (hvalue : setting.ValueSpec standardString depth) :
    setting.DeclSpec standardString (depth + 1) := by
  intro ptr tree copying h hreached htree
  obtain ⟨kind, parts, trees, hlook, htrees, rfl⟩ := unroll_succ_eq_some.mp htree
  obtain ⟨tag, name, params, args, hat, hseen⟩ := Arena.at?_of_look_decl hlook
  obtain ⟨text, htext, heq⟩ := Option.map_eq_some_iff.mp hseen
  obtain ⟨rfl, rfl⟩ := Prod.mk.inj heq
  have hpart : ∀ part ∈ params.map View.decl ++ args.map View.value, setting.reached part ∧
      ∃ t, unroll setting.src.arena.look depth part = some t := by
    intro part hpart
    obtain ⟨t, -, ht⟩ := exists_of_forall₂ htrees hpart
    exact ⟨hreached part ⟨_, hlook, hpart⟩, t, ht⟩
  obtain ⟨hnamed, hext, hname⟩ := h.newVarchar text
  obtain ⟨params', middle, hparams, hmiddle, hext', hcopies⟩ :=
    copyAll_spec (fun copying p q => q ≤ copying.tgt.arena.length ∧
        setting.CopyOf copying (.decl p) (.decl q))
      (fun _ _ _ _ hclosed hext hq => ⟨hq.1.trans hext.length_le, hq.2.extends hclosed hq.1 hext⟩)
      (by
        intro param hparam copying h
        obtain ⟨hreached, t, ht⟩ := hpart (.decl param)
          (List.mem_append_left _ (List.mem_map_of_mem hparam))
        obtain ⟨target, copying', hrun, hsound, hext, ⟨cell, hcell⟩, hcopy⟩ :=
          hdecl param t copying h (fun _ hpart => setting.reached_hangs _ _ hreached hpart) ht
        exact ⟨target, copying', hrun, hsound, hext, (Arena.le_of_at? hcell).2.1, hcopy⟩)
      hnamed
  obtain ⟨args', last, hargs, hlast, hext'', hmapped⟩ :=
    copyAll_spec setting.Mapped (fun _ _ _ _ hclosed hext hq => hq.extends hclosed hext)
      (by
        intro arg harg copying h
        obtain ⟨hreached, t, ht⟩ := hpart (.value arg)
          (List.mem_append_right _ (List.mem_map_of_mem harg))
        exact hvalue arg t copying h hreached ht)
      hmiddle
  have hparams' : List.Forall₂ (fun p q => q ≤ last.tgt.arena.length ∧
      setting.CopyOf last (.decl p) (.decl q)) params params' :=
    hcopies.imp fun p q hq => ⟨hq.1.trans hext''.length_le, hq.2.extends hmiddle.closed hq.1 hext''⟩
  have hname' : last.tgt.arena.at? (copying.newVarchar text).1
      = some ⟨some .varchar, .varchar text⟩ := (hext'.trans hext'').at? hname
  have hptrs : ∀ q ∈ (Cell.typeDecl (copying.newVarchar text).1 params' args').ptrs,
      q ≤ last.tgt.arena.length := by
    intro q hq
    obtain rfl | hq := List.mem_cons.mp hq
    · exact (Arena.le_of_at? hname').2.1
    · obtain hq | hq := List.mem_append.mp hq
      · obtain ⟨p, -, hp⟩ := exists_of_forall₂_right hparams' hq
        exact hp.1
      · obtain ⟨p, -, hp⟩ := exists_of_forall₂_right hmapped hq
        exact hp.le
  have hlook' : ∀ (arena : Arena) (q : ℕ),
      arena.at? q = some ⟨none, .typeDecl (copying.newVarchar text).1 params' args'⟩ →
      arena.at? (copying.newVarchar text).1 = some ⟨some .varchar, .varchar text⟩ →
      arena.look (.decl q)
        = some (.typeDecl text params.length, params'.map .decl ++ args'.map .value) := by
    intro arena q hq hstring
    rw [Arena.look_decl hq, Arena.lookDecl, hcopies.length_eq]
    simp only [Arena.text, hstring, Option.map_some]
  obtain ⟨hsound, hext₃, hplaced⟩ :=
    hlast.allocate (o := ⟨none, .typeDecl (copying.newVarchar text).1 params' args'⟩) hptrs
  refine ⟨_, _, ?_, hsound, (hext.trans hext').trans (hext''.trans hext₃), ⟨_, hplaced⟩, ?_⟩
  · simp only [copyDecl, copyDeclWith, hat, htext, hparams, hargs, Option.bind_eq_bind, Option.bind_some,
      Option.pure_def]
  · refine CopyOf.node hlook rfl (hlook' _ _ hplaced (hext₃.at? hname')) (fun _ => trivial)
      (List.rel_append ?_ ?_)
    · rw [List.forall₂_map_left_iff, List.forall₂_map_right_iff]
      exact hparams'.imp fun p q hq => hq.2.extends hlast.closed hq.1 hext₃
    · rw [List.forall₂_map_left_iff, List.forall₂_map_right_iff]
      refine forall₂_imp_of_mem hmapped fun p hp q hq => ?_
      exact (hq.extends hlast.closed hext₃).value
        (hpart (.value p) (List.mem_append_right _ (List.mem_map_of_mem hp))).1

def Parts (setting : Setting) (depth : ℕ) (parts : List View) : Prop :=
  ∀ part ∈ parts, setting.reached part ∧
    ∃ tree, unroll setting.src.arena.look depth part = some tree

theorem copyArray_spec (hvalue : setting.ValueSpec standardString depth)
    (h : setting.Sound copying) {elements : List ℕ}
    (hat : setting.src.arena.at? source = some ⟨some .array, .array elements⟩)
    (hparts : Parts setting depth (elements.map .value)) :
    ∃ elements' copying', copyAll (deepCopy (copyValue standardString setting.src depth)) elements
        copying = some (elements', copying') ∧
      setting.Sound (copying'.allocate ⟨some .array, .array elements'⟩).2 ∧
      Extends copying (copying'.allocate ⟨some .array, .array elements'⟩).2 ∧
      setting.Mapped (copying'.allocate ⟨some .array, .array elements'⟩).2 source
        (copying'.allocate ⟨some .array, .array elements'⟩).1 := by
  obtain ⟨elements', copying', hrun, hsound, hext, hmapped⟩ :=
    copyAll_spec setting.Mapped (fun _ _ _ _ hclosed hext hq => hq.extends hclosed hext)
      (by
        intro element helement copying h
        obtain ⟨hreached, t, ht⟩ := hparts (.value element) (List.mem_map_of_mem helement)
        exact hvalue.deepCopy h hreached ht)
      h
  have hptrs : ∀ q ∈ elements', q ≤ copying'.tgt.arena.length := by
    intro q hq
    obtain ⟨p, -, hp⟩ := exists_of_forall₂_right hmapped hq
    exact hp.le
  have hlook : setting.src.arena.look (.value source) = some (.array, elements.map .value) := by
    rw [Arena.look_value hat]
    rfl
  have hdecl : setting.src.arena.look (.decl source) = none := by
    simp only [Arena.look, hat, Option.bind_some]
  have hpast : setting.src.arena.lookPast setting.passed (.value source)
      = setting.src.arena.look (.value source) := Arena.lookPast_value _ (by simp [hat])
  obtain ⟨hplaced, hext', hdone⟩ := hsound.place source (o := ⟨some .array, .array elements'⟩) hptrs rfl
    hdecl (by
      intro copying b hext hb
      refine .node hlook hpast hb (fun _ => by simp only [Fits, hat]) ?_
      rw [List.forall₂_map_left_iff, List.forall₂_map_right_iff]
      refine forall₂_imp_of_mem hmapped fun p hp q hq => ?_
      exact (hq.extends hsound.closed hext).value
        (hparts (.value p) (List.mem_map_of_mem hp)).1)
  exact ⟨elements', copying', hrun, hplaced, hext.trans hext', hdone⟩

theorem copyMap_spec (hvalue : setting.ValueSpec standardString depth)
    (h : setting.Sound copying) {entries : List (ℕ × ℕ)}
    (hat : setting.src.arena.at? source = some ⟨some .map, .map entries⟩)
    (hparts : Parts setting depth
      (entries.flatMap fun entry => [.value entry.1, .value entry.2])) :
    ∃ entries' copying', copyAll (deepCopyEntry (copyValue standardString setting.src depth)
        (copyValue standardString setting.src depth)) entries copying
        = some (entries', copying') ∧
      setting.Sound (copying'.allocate ⟨some .map, .map entries'⟩).2 ∧
      Extends copying (copying'.allocate ⟨some .map, .map entries'⟩).2 ∧
      setting.Mapped (copying'.allocate ⟨some .map, .map entries'⟩).2 source
        (copying'.allocate ⟨some .map, .map entries'⟩).1 := by
  have hentry : ∀ entry ∈ entries, ∀ copying, setting.Sound copying → ∃ entry' copying',
      deepCopyEntry (copyValue standardString setting.src depth)
        (copyValue standardString setting.src depth) entry copying = some (entry', copying') ∧
      setting.Sound copying' ∧ Extends copying copying' ∧
      setting.Mapped copying' entry.1 entry'.1 ∧
      setting.Mapped copying' entry.2 entry'.2 := by
    intro entry hentry copying h
    obtain ⟨hreached, t, ht⟩ := hparts (.value entry.1)
      (List.mem_flatMap.mpr ⟨entry, hentry, List.mem_cons_self⟩)
    obtain ⟨hreached', t', ht'⟩ := hparts (.value entry.2)
      (List.mem_flatMap.mpr ⟨entry, hentry, List.mem_cons_of_mem _ List.mem_cons_self⟩)
    obtain ⟨key, first, hkey, hfirst, hext, hmapped⟩ := hvalue.deepCopy h hreached ht
    obtain ⟨value, second, hrun, hsecond, hext', hmapped'⟩ := hvalue.deepCopy hfirst hreached' ht'
    refine ⟨(key, value), second, ?_, hsecond, hext.trans hext',
      hmapped.extends hfirst.closed hext', hmapped'⟩
    simp only [deepCopyEntry, hkey, hrun, Option.bind_eq_bind, Option.bind_some, Option.pure_def]
  obtain ⟨entries', copying', hrun, hsound, hext, hmapped⟩ :=
    copyAll_spec
      (fun copying (e e' : ℕ × ℕ) =>
        setting.Mapped copying e.1 e'.1 ∧ setting.Mapped copying e.2 e'.2)
      (fun _ _ _ _ hclosed hext hq => ⟨hq.1.extends hclosed hext, hq.2.extends hclosed hext⟩)
      hentry h
  have hptrs : ∀ q ∈ (Cell.map entries').ptrs, q ≤ copying'.tgt.arena.length := by
    intro q hq
    obtain ⟨entry', hentry', hq⟩ := List.mem_flatMap.mp hq
    obtain ⟨entry, -, hkey, hvalue⟩ := exists_of_forall₂_right hmapped hentry'
    simp only [List.mem_cons, List.not_mem_nil, or_false] at hq
    obtain rfl | rfl := hq
    · exact hkey.le
    · exact hvalue.le
  have hlook : setting.src.arena.look (.value source) = some
      (.map, entries.flatMap fun entry => [.value entry.1, .value entry.2]) := by
    rw [Arena.look_value hat]
    rfl
  have hdecl : setting.src.arena.look (.decl source) = none := by
    simp only [Arena.look, hat, Option.bind_some]
  have hpast : setting.src.arena.lookPast setting.passed (.value source)
      = setting.src.arena.look (.value source) := Arena.lookPast_value _ (by simp [hat])
  obtain ⟨hplaced, hext', hdone⟩ := hsound.place source (o := ⟨some .map, .map entries'⟩) hptrs rfl
    hdecl (by
      intro copying b hext hb
      refine .node hlook hpast hb (fun _ => by simp only [Fits, hat]) ?_
      have hreached : ∀ entry ∈ entries, setting.reached (.value entry.1) ∧
          setting.reached (.value entry.2) := fun entry hentry =>
        ⟨(hparts _ (List.mem_flatMap.mpr ⟨entry, hentry, List.mem_cons_self⟩)).1,
          (hparts _ (List.mem_flatMap.mpr
            ⟨entry, hentry, List.mem_cons_of_mem _ List.mem_cons_self⟩)).1⟩
      clear hrun hptrs hlook hpast hdecl hat hparts hb hentry
      induction hmapped with
      | nil => exact .nil
      | cons hentry _ ih =>
          obtain ⟨hkey, hvalue⟩ := hreached _ List.mem_cons_self
          exact .cons ((hentry.1.extends hsound.closed hext).value hkey)
            (.cons ((hentry.2.extends hsound.closed hext).value hvalue)
              (ih fun entry hentry => hreached entry (List.mem_cons_of_mem _ hentry))))
  exact ⟨entries', copying', hrun, hplaced, hext.trans hext', hdone⟩

/-- The type is taken from wherever the mode says, the value is copied. -/
theorem copyTypedValue_spec (hresolve : setting.ResolveSpec standardString)
    (hdecl : setting.DeclSpec standardString depth) (hvalue : setting.ValueSpec standardString depth)
    (h : setting.Sound copying) {type value : ℕ}
    (hat : setting.src.arena.at? source = some ⟨some .typedValue, .typedValue type value⟩)
    (hsource : setting.reached (.value source))
    (hparts : ∀ part ∈ [View.decl type, .value value],
      ∃ tree, unroll setting.src.arena.look depth part = some tree) :
    ∃ type' middle value' copying',
      deepCopy (fun type => resolveType standardString setting.src
        (copyDecl standardString setting.src depth type) type) type copying
        = some (type', middle) ∧
      copyValue standardString setting.src depth value middle = some (value', copying') ∧
      setting.Sound (copying'.allocate ⟨some .typedValue, .typedValue type' value'⟩).2 ∧
      Extends copying (copying'.allocate ⟨some .typedValue, .typedValue type' value'⟩).2 ∧
      setting.Mapped (copying'.allocate ⟨some .typedValue, .typedValue type' value'⟩).2
        source (copying'.allocate ⟨some .typedValue, .typedValue type' value'⟩).1 := by
  obtain ⟨t, ht⟩ := hparts (.decl type) List.mem_cons_self
  obtain ⟨t', ht'⟩ := hparts (.value value) (List.mem_cons_of_mem _ List.mem_cons_self)
  have hpast := Arena.lookPast_typedValue setting.passed hat
  have hhangs : Hangs (setting.src.arena.lookPast setting.passed) (.value source) (.value value) := by
    refine ⟨_, hpast, ?_⟩
    dsimp only
    split_ifs
    · exact List.mem_singleton_self _
    · exact List.mem_cons_of_mem _ List.mem_cons_self
  have hhangs' : setting.passed type = false →
      Hangs (setting.src.arena.lookPast setting.passed) (.value source) (.decl type) := by
    intro hpassed
    refine ⟨_, hpast, ?_⟩
    rw [hpassed]
    exact List.mem_cons_self
  have hreached' := setting.reached_hangs _ _ hsource hhangs
  obtain ⟨type', middle, htype, hmiddle, hext, hmapped⟩ :=
    deepCopy_spec _ type (fun hptr =>
      hresolve depth source type value t copying hdecl h hptr hat hsource
        (fun hpassed => setting.reached_hangs _ _ hsource (hhangs' hpassed)) ht) h
  obtain ⟨value', copying', hrun, hsound, hext', hmapped'⟩ :=
    hvalue value t' middle hmiddle hreached' ht'
  have htype' := hmapped.extends hmiddle.closed hext'
  have hptrs : ∀ q ∈ (Cell.typedValue type' value').ptrs, q ≤ copying'.tgt.arena.length := by
    intro q hq
    simp only [Cell.ptrs, List.mem_cons, List.not_mem_nil, or_false] at hq
    obtain rfl | rfl := hq
    · exact htype'.le
    · exact hmapped'.le
  have hlook : setting.src.arena.look (.value source)
      = some (.typedValue, [.decl type, .value value]) := by
    rw [Arena.look_value hat]
    rfl
  have hnone : setting.src.arena.look (.decl source) = none := by
    simp only [Arena.look, hat, Option.bind_some]
  obtain ⟨hplaced, hext₃, hdone⟩ :=
    hsound.place source (o := ⟨some .typedValue, .typedValue type' value'⟩) hptrs rfl hnone (by
      intro copying b hext hb
      have htype := htype'.extends hsound.closed hext
      have hvalue := (hmapped'.extends hsound.closed hext).value hreached'
      constructor
      · intro hok
        have hfits := hok.here
        simp only [Fits, hat] at hfits
        exact .node hlook hb (.cons
          (htype.decl hfits fun hpassed => hok.below (hhangs' hpassed))
          (.cons (hvalue.copies (hok.below hhangs)) .nil))
      · intro htight hmatches
        obtain ⟨-, hmatches⟩ := hmatches.children hlook hb
        obtain ⟨hfirst, hrest⟩ := List.forall₂_cons.mp hmatches
        obtain ⟨hsecond, -⟩ := List.forall₂_cons.mp hrest
        obtain ⟨hfits, hok⟩ := htype.onlyDecl htight hfirst
        refine everywhere_of_below (by simpa only [Fits, hat] using hfits) ?_
        rintro part ⟨seen, hseen, hpart⟩
        obtain rfl := Option.some.inj (hseen.symm.trans hpast)
        dsimp only at hpart
        split_ifs at hpart with hpassed
        · obtain rfl := List.mem_singleton.mp hpart
          exact hvalue.only htight hsecond
        · simp only [List.mem_cons, List.not_mem_nil, or_false] at hpart
          obtain rfl | rfl := hpart
          · exact hok (by simpa using hpassed)
          · exact hvalue.only htight hsecond)
  exact ⟨type', middle, value', copying', htype, hrun, hplaced,
    (hext.trans hext').trans hext₃, hdone⟩

theorem valueSpec_succ (hresolve : setting.ResolveSpec standardString)
    (hdecl : setting.DeclSpec standardString depth)
    (hvalue : setting.ValueSpec standardString depth) :
    setting.ValueSpec standardString (depth + 1) := by
  intro ptr tree copying h hreached htree
  obtain ⟨kind, parts, trees, hlook, htrees, rfl⟩ := unroll_succ_eq_some.mp htree
  have hunroll : ∀ part ∈ parts, ∃ t, unroll setting.src.arena.look depth part = some t := by
    intro part hpart
    obtain ⟨t, -, ht⟩ := exists_of_forall₂ htrees hpart
    exact ⟨t, ht⟩
  have hparts : setting.src.arena.lookPast setting.passed (.value ptr)
      = setting.src.arena.look (.value ptr) → Parts setting depth parts := by
    intro hpast part hpart
    exact ⟨setting.reached_hangs _ _ hreached ⟨_, hpast.trans hlook, hpart⟩, hunroll part hpart⟩
  by_cases hzero : ptr = 0
  · subst hzero
    refine ⟨0, copying, by simp only [copyValue, if_pos], h, .refl copying, ?_⟩
    exact .of_value (Nat.zero_le _) (.node rfl rfl rfl (fun _ => trivial) .nil) rfl
  · obtain ⟨object, hat, hobject⟩ : ∃ object, setting.src.arena.at? ptr = some object ∧
        setting.src.arena.lookValue object = some (kind, parts) := by
      simpa only [Arena.look, if_neg hzero, Option.bind_eq_some_iff] using hlook
    unfold Arena.lookValue at hobject
    split at hobject
    case h_7 => cases hobject
    case h_1 hash bits =>
        obtain ⟨rfl, rfl⟩ := Prod.mk.inj (Option.some.inj hobject)
        obtain ⟨hsound, hext, hmapped⟩ := h.place ptr (o := ⟨some (.scalar hash), .scalar bits⟩)
          (by simp [Cell.ptrs]) rfl (by simp only [Arena.look, hat, Option.bind_some])
          (fun copying b _ hb => .node hlook (Arena.lookPast_value _ (by simp [hat])) hb
            (fun _ => by simp only [Fits, hat]) .nil)
        exact ⟨_, _, by simp only [copyValue, if_neg hzero, hat], hsound, hext, hmapped⟩
    case h_2 text =>
        obtain ⟨rfl, rfl⟩ := Prod.mk.inj (Option.some.inj hobject)
        obtain ⟨hsound, hext, hstring⟩ := h.newVarchar text
        refine ⟨_, _, by simp only [copyValue, if_neg hzero, hat], hsound, hext,
          .of_value (Arena.le_of_at? hstring).2.1 ?_ ?_⟩
        · refine .node hlook (Arena.lookPast_value _ (by simp [hat])) ?_
            (fun _ => by simp only [Fits, hat]) .nil
          rw [Arena.look_value hstring]
          rfl
        · simp only [Arena.look, hat, Option.bind_some]
    case h_3 elements =>
        obtain ⟨rfl, rfl⟩ := Prod.mk.inj (Option.some.inj hobject)
        obtain ⟨elements', copying', hrun, hsound, hext, hmapped⟩ :=
          copyArray_spec hvalue h hat (hparts (Arena.lookPast_value _ (by simp [hat])))
        refine ⟨_, _, ?_, hsound, hext, hmapped⟩
        simp only [copyValue, if_neg hzero, hat, hrun, Option.bind_eq_bind, Option.bind_some,
          Option.pure_def]
    case h_4 entries =>
        obtain ⟨rfl, rfl⟩ := Prod.mk.inj (Option.some.inj hobject)
        obtain ⟨entries', copying', hrun, hsound, hext, hmapped⟩ :=
          copyMap_spec hvalue h hat (hparts (Arena.lookPast_value _ (by simp [hat])))
        refine ⟨_, _, ?_, hsound, hext, hmapped⟩
        simp only [copyValue, if_neg hzero, hat, hrun, Option.bind_eq_bind, Option.bind_some,
          Option.pure_def]
    case h_5 name params args =>
        have hseen : setting.src.arena.look (.decl ptr) = some (kind, parts) := by
          rw [Arena.look_decl hat]
          exact hobject
        have hreached' : ∀ part, Hangs setting.src.arena.look (.decl ptr) part →
            setting.reached part := by
          rintro part ⟨seen, hpart, hmem⟩
          have hpast : setting.src.arena.lookPast setting.passed (.value ptr)
              = setting.src.arena.look (.value ptr) := Arena.lookPast_value _ (by simp [hat])
          exact setting.reached_hangs _ _ hreached ⟨seen, by rw [hpast, hlook, ← hseen, hpart], hmem⟩
        obtain ⟨target, copying', hrun, hsound, hext, ⟨cell, hcell⟩, hcopy⟩ :=
          declSpec_succ hdecl hvalue ptr _ copying h hreached'
            (unroll_succ_eq_some.mpr ⟨kind, parts, trees, hseen, htrees, rfl⟩)
        refine ⟨target, copying', ?_, hsound, hext,
          .of_decl hseen hcell (setting.passed_value ptr _ hreached hat)
            (fun _ => setting.fits_value copying' ptr hreached) hcopy⟩
        simp only [copyValue, if_neg hzero, hat]
        simpa only [copyDecl] using hrun
    case h_6 type value =>
        obtain ⟨rfl, rfl⟩ := Prod.mk.inj (Option.some.inj hobject)
        obtain ⟨type', middle, value', copying', htype, hrun, hsound, hext, hmapped⟩ :=
          copyTypedValue_spec hresolve hdecl hvalue h hat hreached hunroll
        refine ⟨_, _, ?_, hsound, hext, hmapped⟩
        simp only [copyValue, if_neg hzero, hat, htype, hrun, Option.bind_eq_bind,
          Option.bind_some, Option.pure_def]

theorem specs (hresolve : setting.ResolveSpec standardString) (depth : ℕ) :
    setting.DeclSpec standardString depth ∧ setting.ValueSpec standardString depth := by
  induction depth with
  | zero =>
      refine ⟨?_, ?_⟩
      all_goals
        intro ptr tree copying _ _ htree
        cases htree
  | succ depth ih => exact ⟨declSpec_succ ih.1 ih.2, valueSpec_succ hresolve ih.1 ih.2⟩

end Induction

end Setting

end Memoria.LinkedDocument

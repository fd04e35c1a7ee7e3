import Mathlib.Data.List.Find
import Mathlib.Tactic.Set
import Memoria.Proof.DeepCopy
import Memoria.Proof.LinkedVector

/-!
# The three modes of copying

`compactify` copies every type that it meets, an export only those that have a name, and an import
takes a type of the target where the text is the same. Each gives a `Setting`, with what it knows of
the mapping, and from it what the copy is.
-/

namespace Memoria.LinkedDocument

open Lib
open Sdn (Text)
open Setting

variable {standardString : Document → ℕ → Text} {src dst : Document} {depth : ℕ}

def compaction (src : Document) (types : List (ℕ × ℕ)) : Setting where
  src := src
  passed _ := false
  reached _ := True
  fits _ := True
  fits' _ _ := True
  tight := True
  extra copying := copying.mapping.copyingType = .compaction ∧ copying.tgt.typeDirectory = types
  fits'_extends _ _ _ _ _ := trivial
  reached_hangs _ _ _ _ := trivial
  passed_value _ _ _ _ _ := rfl
  fits_value _ _ _ := trivial
  extra_grows _ _ _ hgrows h :=
    ⟨hgrows.copyingType.trans h.1, hgrows.typeDirectory.trans h.2⟩

section Compaction

variable {types : List (ℕ × ℕ)} {copying : Copying} {ptr : ℕ}

theorem exists_look_of_unroll {arena : Arena} {view : View} {tree : Lib.Tree Kind}
    (h : unroll arena.look depth view = some tree) : ∃ seen, arena.look view = some seen := by
  cases depth with
  | zero => cases h
  | succ depth =>
      obtain ⟨_, _, _, hseen, -⟩ := unroll_succ_eq_some.mp h
      exact ⟨_, hseen⟩

theorem compaction_resolve : (compaction src types).ResolveSpec standardString := by
  intro depth _ type _ tree copying hspec h _ _ _ _ htree
  obtain ⟨seen, hseen⟩ := exists_look_of_unroll htree
  obtain ⟨target, copying', hrun, hsound, hext, ⟨cell, hcell⟩, hcopy⟩ :=
    hspec type tree copying h (fun _ _ => trivial) htree
  have hmapped := Rules.Mapped.of_decl hseen hcell (fun _ => rfl) (fun _ => trivial) hcopy
  refine ⟨target, copying', ?_, hsound.mapPtrs hmapped, hext, hmapped⟩
  simp only [resolveType, h.extra.1]
  exact hrun

theorem copyString_spec (h : (compaction src types).Sound copying) (hptr : src.arena.IsString ptr) :
    ∃ target copying', deepCopy (copyString src) ptr copying = some (target, copying') ∧
      (compaction src types).Sound copying' ∧ Extends copying copying' ∧
      (compaction src types).Mapped copying' ptr target := by
  obtain ⟨text, hat⟩ := hptr
  refine deepCopy_spec _ ptr (fun _ => ?_) h
  have hlook : src.arena.look (.value ptr) = some (.varchar text, []) := by
    rw [Arena.look_value hat]
    rfl
  obtain ⟨hsound, hext, hmapped⟩ := h.place ptr (o := ⟨some .varchar, .varchar text⟩)
    (by simp [Cell.ptrs]) rfl (by simp only [compaction, Arena.look, hat, Option.bind_some])
    (fun copying b _ hb => .node hlook (Arena.lookPast_value _ (by simp [compaction, hat])) hb
      (fun _ => by simp only [compaction, Fits, hat]) .nil)
  refine ⟨_, _, ?_, hsound.mapPtrs hmapped, hext, hmapped⟩
  simp only [copyString, Arena.text, hat, Option.map_some]

variable (standardString) in
theorem copyNamedType_spec (h : (compaction src types).Sound copying) {entry : ℕ × ℕ}
    {tree : Lib.Tree Kind} (hkey : src.arena.IsString entry.1)
    (htree : unroll src.arena.look depth (.decl entry.2) = some tree) :
    ∃ entry' copying', deepCopyEntry (copyString src) (copyDecl standardString src depth) entry
        copying = some (entry', copying') ∧
      (compaction src types).Sound copying' ∧ Extends copying copying' ∧
      (compaction src types).Mapped copying' entry.1 entry'.1 ∧
      (compaction src types).Mapped copying' entry.2 entry'.2 := by
  obtain ⟨seen, hseen⟩ := exists_look_of_unroll htree
  obtain ⟨key, first, hrun, hfirst, hext, hmapped⟩ := copyString_spec h hkey
  obtain ⟨type, second, hrun', hsecond, hext', hmapped'⟩ :=
    deepCopy_spec (copyDecl standardString src depth) entry.2 (fun _ => by
      obtain ⟨target, copying', hrun, hsound, hext, ⟨cell, hcell⟩, hcopy⟩ :=
        (specs compaction_resolve depth).1 entry.2 tree first hfirst (fun _ _ => trivial) htree
      have hmapped := Rules.Mapped.of_decl hseen hcell (fun _ => rfl) (fun _ => trivial) hcopy
      exact ⟨target, copying', hrun, hsound.mapPtrs hmapped, hext, hmapped⟩) hfirst
  refine ⟨(key, type), second, ?_, hsecond, hext.trans hext', hmapped.extends hfirst.closed hext',
    hmapped'⟩
  simp only [deepCopyEntry, hrun, hrun', Option.bind_eq_bind, Option.bind_some, Option.pure_def]

/-- Every view of a document of no more than `depth` levels can be read. -/
theorem matches_of_copies {arena arena' : Arena} {a b : View} {tree : Lib.Tree Kind}
    (htree : unroll arena.look depth a = some tree) (h : Copies arena.look arena'.look a b) :
    Matches arena.look arena'.look a b :=
  ⟨tree, ⟨depth, htree⟩, ⟨depth, h depth tree htree⟩⟩

variable (standardString) in
/-- Compaction returns, and its copy is the same document exactly when the condition holds. -/
theorem compactify_spec {src : Document} {depth : ℕ} (hvalid : src.Valid)
    (hfinite : src.Finite depth) : ∃ tgt, compactify standardString src depth = some tgt ∧
      (SameDocument src tgt ↔ CompactOk src) := by
  have hstart : (compaction src []).Sound ⟨Document.empty, .forCompaction⟩ := by
    refine ⟨fun object hobject => ?_, fun ptr hptr => ?_, fun source target h => ?_, rfl, rfl⟩
    · cases hobject
    · cases hptr
    · cases h
  obtain ⟨strings, first, hstrings, hfirst, -, hmapped⟩ :=
    copyAll_spec (compaction src []).Mapped
      (fun _ _ _ _ hclosed hext hq => hq.extends hclosed hext)
      (fun ptr hptr _ h => copyString_spec h (hvalid.strings ptr hptr)) hstart
  have hfirst' : (compaction src []).Sound
      { first with tgt := { first.tgt with strings := strings } } := by
    refine ⟨hfirst.closed, fun ptr hptr => ?_, fun source target h => ?_, hfirst.extra⟩
    · obtain ⟨source, hsource, hmapped⟩ := exists_of_forall₂_right hmapped hptr
      obtain ⟨text, hat⟩ := hvalid.strings source hsource
      exact ⟨text, hmapped.at?_of_string trivial hat⟩
    · exact (hfirst.mapped source target h).extends hfirst.closed (.of_same rfl rfl)
  obtain ⟨types, second, htypes, hsecond, -, hentries⟩ :=
    copyAll_spec (fun copying (e e' : ℕ × ℕ) => (compaction src []).Mapped copying e.1 e'.1 ∧
        (compaction src []).Mapped copying e.2 e'.2)
      (fun _ _ _ _ hclosed hext hq => ⟨hq.1.extends hclosed hext, hq.2.extends hclosed hext⟩)
      (fun entry hentry _ h => by
        obtain ⟨tree, htree⟩ := hfinite.types entry hentry
        exact copyNamedType_spec standardString h (hvalid.types entry hentry).1 htree) hfirst'
  have hsecond' : (compaction src types).Sound
      { second with tgt := { second.tgt with typeDirectory := types } } :=
    ⟨hsecond.closed, hsecond.strings, fun source target h =>
      (hsecond.mapped source target h).extends hsecond.closed (.of_same rfl rfl),
      hsecond.extra.1, rfl⟩
  obtain ⟨tree, htree⟩ := hfinite.value
  obtain ⟨value, last, hvalue, hlast, hext, hdone⟩ :=
    (specs compaction_resolve depth).2 src.value tree _ hsecond' trivial htree
  refine ⟨{ last.tgt with value := value }, ?_, ?_⟩
  · simp only [compactify, hstrings, htypes, Option.bind_eq_bind, Option.bind_some, Option.pure_def]
    rw [show copyValue standardString src depth src.value _ = _ from hvalue]
    rfl
  have hdirectory : last.tgt.typeDirectory = types := hlast.extra.2
  have hentries' : List.Forall₂ (fun e e' : ℕ × ℕ =>
      (compaction src []).Mapped last e.1 e'.1 ∧ (compaction src []).Mapped last e.2 e'.2)
      src.typeDirectory types := by
    have hplaced : Extends second
        { second with tgt := { second.tgt with typeDirectory := types } } := .of_same rfl rfl
    have hext := hplaced.trans hext
    exact hentries.imp fun e e' he =>
      ⟨he.1.extends hsecond.closed hext, he.2.extends hsecond.closed hext⟩
  have hok : ∀ view, (compaction src []).Ok (fun _ => True) view ↔ CopyOk src.arena (fun _ => True) view :=
    fun view => Rules.ok_iff_copyOk rfl
  constructor
  · intro hsame
    refine ⟨(hok _).mp ((hdone.value trivial).only trivial hsame.value), fun entry hentry => ?_⟩
    have htypes := hsame.types
    rw [show ({ last.tgt with value := value } : Document).typeDirectory = types from hdirectory]
      at htypes
    have hboth := htypes.mp (fun a b hmatch hmapped =>
      (hmapped.2.onlyDecl trivial hmatch.2).2) hentries'
    obtain ⟨-, -, hentry⟩ := exists_of_forall₂ hboth hentry
    exact (hok _).mp (hentry rfl)
  · intro hcompact
    refine ⟨matches_of_copies htree ((hdone.value trivial).copies ((hok _).mpr hcompact.1)), ?_⟩
    change List.Forall₂ _ src.typeDirectory last.tgt.typeDirectory
    rw [hdirectory]
    refine forall₂_imp_of_mem hentries' ?_
    intro entry hentry entry' hmapped
    obtain ⟨text, hat⟩ := (hvalid.types entry hentry).1
    obtain ⟨tree, htree⟩ := hfinite.types entry hentry
    refine ⟨?_, matches_of_copies htree
      (hmapped.2.decl trivial fun _ => (hok _).mpr (hcompact.2 entry hentry))⟩
    simp only [Arena.text, hat, hmapped.1.at?_of_string trivial hat]

end Compaction

section Named

variable {α β γ : Type} [DecidableEq β]

/-- A table that is filled entry by entry has at a key what it had before, or what one of the
entries has put there. -/
theorem foldl_update (key : α → β) (value : α → γ) (entries : List α) (table : β → γ) (b : β) :
    (entries.foldl (fun table entry => Function.update table (key entry) (value entry)) table b
        = table b ∧ ∀ entry ∈ entries, key entry ≠ b) ∨
      ∃ entry ∈ entries, key entry = b ∧
        entries.foldl (fun table entry => Function.update table (key entry) (value entry)) table b
          = value entry := by
  induction entries generalizing table with
  | nil => exact .inl ⟨rfl, by simp⟩
  | cons entry entries ih =>
      simp only [List.foldl_cons]
      obtain ⟨hsame, hkeys⟩ | ⟨other, hother, hkey, hvalue⟩ :=
        ih (Function.update table (key entry) (value entry))
      · by_cases hkey : key entry = b
        · refine .inr ⟨entry, List.mem_cons_self, hkey, ?_⟩
          rw [hsame, ← hkey, Function.update_self]
        · refine .inl ⟨by rw [hsame, Function.update_of_ne (Ne.symm hkey)], ?_⟩
          intro other hother
          obtain rfl | hother := List.mem_cons.mp hother
          · exact hkey
          · exact hkeys other hother
      · exact .inr ⟨other, List.mem_cons_of_mem _ hother, hkey, hvalue⟩

end Named

theorem namesOf_eq_some {type : ℕ} {name : Text} {imported : Bool}
    (h : Mapping.namesOf src type = some (name, imported)) :
    ∃ entry ∈ src.typeDirectory, entry.2 = type ∧ src.arena.text entry.1 = some name ∧
      imported = false := by
  obtain ⟨hsame, -⟩ | ⟨entry, hentry, hkey, hvalue⟩ :=
    foldl_update (fun entry : ℕ × ℕ => entry.2)
      (fun entry => (src.arena.text entry.1).map fun name => (name, false))
      src.typeDirectory (fun _ => none) type
  · rw [Mapping.namesOf, hsame] at h
    cases h
  · rw [Mapping.namesOf, hvalue] at h
    obtain ⟨text, htext, heq⟩ := Option.map_eq_some_iff.mp h
    obtain ⟨rfl, rfl⟩ := Prod.mk.inj heq
    exact ⟨entry, hentry, hkey, htext, rfl⟩

theorem namesOf_ne_none (hvalid : src.Valid) {type : ℕ} :
    Mapping.namesOf src type ≠ none ↔ src.IsNamed type := by
  constructor
  · intro h
    obtain ⟨⟨name, imported⟩, hname⟩ := Option.ne_none_iff_exists'.mp h
    obtain ⟨entry, hentry, hkey, -⟩ := namesOf_eq_some hname
    exact ⟨entry, hentry, hkey⟩
  · rintro ⟨entry, hentry, rfl⟩ hnone
    obtain ⟨-, hkeys⟩ | ⟨other, hother, -, hvalue⟩ :=
      foldl_update (fun entry : ℕ × ℕ => entry.2)
        (fun entry => (src.arena.text entry.1).map fun name => (name, false))
        src.typeDirectory (fun _ => none) entry.2
    · exact hkeys entry hentry rfl
    · rw [Mapping.namesOf, hvalue] at hnone
      obtain ⟨text, htext⟩ := (hvalid.types other hother).1.text
      rw [htext] at hnone
      cases hnone

theorem mem_putType {doc : Document} {key type : ℕ} {entry : ℕ × ℕ}
    (h : entry ∈ (doc.putType key type).typeDirectory) :
    entry ∈ doc.typeDirectory ∨ entry = (key, type) ∨
      ∃ old ∈ doc.typeDirectory, entry = (old.1, type) := by
  unfold Document.putType at h
  split_ifs at h with hany
  · obtain ⟨old, hold, rfl⟩ := List.mem_map.mp h
    split_ifs with htext
    · exact .inr (.inr ⟨old, hold, rfl⟩)
    · exact .inl hold
  · obtain h | h := List.mem_append.mp h
    · exact .inl h
    · exact .inr (.inl (List.mem_singleton.mp h))

@[simp]
theorem putType_arena (doc : Document) (key type : ℕ) :
    (doc.putType key type).arena = doc.arena := by
  unfold Document.putType
  split_ifs <;> rfl

@[simp]
theorem putType_strings (doc : Document) (key type : ℕ) :
    (doc.putType key type).strings = doc.strings := by
  unfold Document.putType
  split_ifs <;> rfl

section SetNamed

variable (copying : Copying) (name : Text) (type : ℕ)

@[simp]
theorem setNamed_arena : (copying.setNamedTypeDeclaration name type).tgt.arena
    = (copying.newVarchar name).2.tgt.arena :=
  putType_arena _ _ _

@[simp]
theorem setNamed_strings : (copying.setNamedTypeDeclaration name type).tgt.strings
    = (copying.newVarchar name).2.tgt.strings :=
  putType_strings _ _ _

variable {copying name type}

theorem Extends.setNamed {first last : Copying} (h : Extends first (copying.newVarchar name).2)
    (hlast : last.tgt = (copying.setNamedTypeDeclaration name type).tgt)
    (htypes : ∀ data, copying.mapping.typesByData data ≠ none →
      last.mapping.typesByData data ≠ none) : Extends first last := by
  refine ⟨?_, fun data hdata => htypes data (h.types data hdata)⟩
  rw [hlast, setNamed_arena]
  exact h.arena

/-- A type is named: what is left to show is what the mode has to know. -/
theorem Setting.Sound.setNamed {setting : Setting} {source target : ℕ} {last : Copying}
    (h : setting.Sound copying) (hmapped : setting.Mapped last source target)
    (hlast : last.tgt = (copying.setNamedTypeDeclaration name target).tgt)
    (hptrs : last.mapping.ptrs = Function.update copying.mapping.ptrs source (some target))
    (hext : Extends copying last) (hextra : setting.extra last) : setting.Sound last := by
  obtain ⟨hkeyed, -, -⟩ := h.newVarchar name
  have harena : last.tgt.arena = (copying.newVarchar name).2.tgt.arena := by
    rw [hlast, setNamed_arena]
  refine ⟨?_, ?_, ?_, hextra⟩
  · rw [harena]
    exact hkeyed.closed
  · rw [harena, hlast, setNamed_strings]
    exact hkeyed.strings
  · intro source' target' hptr
    rw [hptrs, Function.update_apply] at hptr
    split_ifs at hptr with heq
    · cases hptr
      rw [heq]
      exact hmapped
    · exact (h.mapped source' target' hptr).extends h.closed hext

end SetNamed

def exportRules (src : Document) (root : View) : Rules where
  src := src
  passed _ := false
  reached := Relation.ReflTransGen (Hangs src.arena.look) root
  fits := src.IsNamed
  fits' _ type :=
    src.IsNamed type ∨ Relation.ReflTransGen (Hangs src.arena.look) root (.value type)
  tight := True
  fits'_extends _ _ _ _ h := h

structure ExportState (src : Document) (root : View) (copying : Copying) : Prop where
  copyingType : copying.mapping.copyingType = .exporting
  names : ∀ type, copying.mapping.typeNames type ≠ none ↔ src.IsNamed type
  imported : ∀ type name, copying.mapping.typeNames type = some (name, true) →
    copying.mapping.ptrs type ≠ none
  types : ∀ entry ∈ copying.tgt.typeDirectory, copying.tgt.arena.IsString entry.1 ∧
    ∃ type, src.IsNamed type ∧ Relation.ReflTransGen (Hangs src.arena.look) root (.decl type) ∧
      (exportRules src root).Mapped copying type entry.2

def exporting (src : Document) (root : View) : Setting where
  toRules := exportRules src root
  extra := ExportState src root
  reached_hangs _ _ ha hc := ha.tail (Arena.hangs_of_lookPast hc)
  passed_value _ _ _ _ _ := rfl
  fits_value _ _ h := .inr h
  extra_grows copying copying' hclosed hgrows h := by
    obtain ⟨more, hmore⟩ := hgrows.arena
    refine ⟨hgrows.copyingType.trans h.copyingType, ?_, ?_, ?_⟩
    · rw [hgrows.typeNames]
      exact h.names
    · intro type name hname
      rw [hgrows.typeNames] at hname
      exact hgrows.ptrs type (h.imported type name hname)
    · intro entry hentry
      rw [hgrows.typeDirectory] at hentry
      obtain ⟨hkey, type, hnamed, hreached, hmapped⟩ := h.types entry hentry
      refine ⟨?_, type, hnamed, hreached, hmapped.extends hclosed hgrows.extends⟩
      rw [hmore]
      exact hkey.append

section Export

variable {root : View} {copying : Copying}

theorem exporting_resolve : (exporting src root).ResolveSpec standardString := by
  intro depth _ type _ tree copying hspec h hptr _ _ hreached htree
  obtain ⟨seen, hseen⟩ := exists_look_of_unroll htree
  rcases hname : copying.mapping.typeNames type with _ | ⟨name, imported⟩
  · -- a type without a name becomes the null pointer
    have hnamed : ¬ src.IsNamed type := fun hnamed => (h.extra.names type).mpr hnamed hname
    have hmapped : (exporting src root).Mapped copying type 0 := by
      refine ⟨Nat.zero_le _, fun _ => .of_decl hseen fun _ => .inl rfl,
        fun hfits => absurd hfits hnamed, ?_⟩
      intro _ hmatches
      obtain ⟨-, ⟨seen', hseen'⟩⟩ := hmatches.look_isSome
      cases hseen'
    refine ⟨0, copying, ?_, h.mapPtrs hmapped, .refl copying, hmapped⟩
    simp only [resolveType, h.extra.copyingType, hname]
  cases imported with
  | true => exact absurd hptr (h.extra.imported type name hname)
  | false =>
      have hnamed : src.IsNamed type := (h.extra.names type).mp (by rw [hname]; simp)
      obtain ⟨target, middle, hrun, hmiddle, hext, ⟨cell, hcell⟩, hcopy⟩ :=
        hspec type tree copying h (fun _ hpart => (hreached rfl).tail hpart) htree
      obtain ⟨hkeyed, hext', hkey⟩ := hmiddle.newVarchar name
      have hmapped : (exporting src root).Mapped middle type target :=
        .of_decl hseen hcell (fun _ => rfl) (fun _ => .inl hnamed) hcopy
      let last := (middle.finishSrcNamedType type).setNamedTypeDeclaration name target
      have harena : last.tgt.arena = (middle.newVarchar name).2.tgt.arena := putType_arena _ _ _
      have hlast : Extends (middle.newVarchar name).2 (last.mapPtrs type target) :=
        .of_same harena rfl
      have hnew := (hmapped.extends hmiddle.closed hext').extends hkeyed.closed hlast
      have hstate : ExportState src root (last.mapPtrs type target) := by
        refine ⟨hkeyed.extra.copyingType, ?_, ?_, ?_⟩
        · intro other
          have hother := hkeyed.extra.names other
          change Function.update middle.mapping.typeNames type _ other ≠ none ↔ _
          by_cases heq : other = type
          · subst heq
            rw [Function.update_self, ne_eq, Option.map_eq_none_iff]
            exact hother
          · rw [Function.update_of_ne heq]
            exact hother
        · intro other name' hname'
          change Function.update middle.mapping.ptrs type (some target) other ≠ none
          by_cases heq : other = type
          · rw [heq, Function.update_self]
            exact Option.some_ne_none target
          · rw [Function.update_of_ne heq]
            change Function.update middle.mapping.typeNames type _ other = _ at hname'
            rw [Function.update_of_ne heq] at hname'
            exact hkeyed.extra.imported other name' hname'
        · intro entry hentry
          change last.tgt.arena.IsString entry.1 ∧ _
          rw [harena]
          obtain hold | rfl | ⟨old, hold, rfl⟩ := mem_putType hentry
          · obtain ⟨hstring, other, hother, hreached, hmapped⟩ := hkeyed.extra.types entry hold
            exact ⟨hstring, other, hother, hreached, hmapped.extends hkeyed.closed hlast⟩
          · exact ⟨⟨name, hkey⟩, type, hnamed, hreached rfl, hnew⟩
          · exact ⟨(hkeyed.extra.types old hold).1, type, hnamed, hreached rfl, hnew⟩
      have hlast' : Extends middle last := Extends.setNamed hext' rfl fun _ h => h
      refine ⟨target, last, ?_, hmiddle.setNamed hnew rfl rfl (hext'.trans hlast) hstate,
        hext.trans hlast', hmapped.extends hmiddle.closed hlast'⟩
      simp only [resolveType, h.extra.copyingType, hname]
      rw [show copyDecl standardString (exporting src root).src depth type copying = _ from hrun]
      rfl

/-- Where no declaration stands as a value, the copy of one does not serve as a type. -/
theorem not_value_of_fits {arena : Arena} {fits : ℕ → Prop} {type : ℕ} {t t' : Lib.Tree Kind}
    (hfits : Fits arena fits (.value type)) (ht : unroll arena.look depth (.decl type) = some t)
    (ht' : unroll arena.look depth (.value type) = some t') : False := by
  obtain ⟨seen, hseen⟩ := exists_look_of_unroll ht
  obtain ⟨seen', hseen'⟩ := exists_look_of_unroll ht'
  obtain ⟨tag, name, params, args, hdecl, -⟩ := Arena.at?_of_look_decl hseen
  rw [Arena.look_value hdecl] at hseen'
  simp only [Fits, hdecl] at hfits
  unfold Arena.lookValue at hseen'
  split at hseen'
  case h_5 heq =>
      cases heq
      exact hfits.elim
  case h_7 => cases hseen'
  all_goals
    rename_i heq
    cases heq

theorem exportOk_of_copyOk {tree : Lib.Tree Kind} (htree : unroll src.arena.look depth root = some tree)
    (h : CopyOk src.arena ((exportRules src root).fits' copying) root) :
    CopyOk src.arena src.IsNamed root := by
  intro view hview
  have hfits := h view hview
  cases view with
  | decl type => trivial
  | value ptr =>
      simp only [Fits] at hfits ⊢
      split at hfits
      case h_1 => exact hfits
      case h_3 => trivial
      case h_2 type value hat =>
          obtain hnamed | hvalue := hfits
          · exact hnamed
          have hlook : src.arena.look (.value ptr) = some (.typedValue, [.decl type, .value value]) := by
            rw [Arena.look_value hat]
            rfl
          obtain ⟨t, ht⟩ := exists_unroll_of_reached htree
            (hview.tail ⟨_, hlook, List.mem_cons_self⟩)
          obtain ⟨t', ht'⟩ := exists_unroll_of_reached htree hvalue
          exact (not_value_of_fits (h (.value type) hvalue) ht ht').elim

theorem exporting_start (root : View) (hvalid : src.Valid) :
    (exporting src root).Sound ⟨Document.empty, .forExport src⟩ := by
  refine ⟨fun object hobject => ?_, fun ptr hptr => ?_, fun source target h => ?_, rfl, ?_, ?_, ?_⟩
  · cases hobject
  · cases hptr
  · cases h
  · intro type
    exact namesOf_ne_none hvalid
  · intro type name hname
    obtain ⟨_, _, _, _, hfalse⟩ := namesOf_eq_some hname
    cases hfalse
  · intro entry hentry
    cases hentry

/-- A clone returns with a copy of the value exactly when the condition holds, with the compaction
or without it. -/
theorem clone_spec (hvalid : src.Valid) {ptr : ℕ} {tree : Lib.Tree Kind}
    (htree : unroll src.arena.look depth (.value ptr) = some tree) (compact : Bool) :
    (∃ tgt, clone standardString src depth ptr compact = some tgt ∧
      StandsFor tgt.arena.look (.value tgt.value) tree) ↔ ExportOk src ptr := by
  obtain ⟨value, last, hrun, hlast, -, hmapped⟩ :=
    (specs exporting_resolve depth).2 ptr tree ⟨Document.empty, .forExport src⟩
      (exporting_start (.value ptr) hvalid) .refl htree
  change copyValue standardString src depth ptr _ = _ at hrun
  have hvalue := hmapped.value .refl
  constructor
  · rintro ⟨tgt, hclone, hstands⟩
    have htgt : tgt = { last.tgt with value := value } := by
      simp only [clone, hrun, Option.bind_eq_bind, Option.bind_some, Option.pure_def] at hclone
      split_ifs at hclone
      · obtain ⟨-, -, heq⟩ := Option.bind_eq_some_iff.mp hclone
        exact (Option.some.inj heq).symm
      · exact (Option.some.inj hclone).symm
    subst htgt
    exact exportOk_of_copyOk htree ((Rules.ok_iff_copyOk rfl).mp
      (hvalue.only trivial ⟨tree, ⟨depth, htree⟩, hstands⟩))
  · intro hok
    have hcopy : unroll last.tgt.arena.look depth (.value value) = some tree :=
      hvalue.copies ((Rules.ok_iff_copyOk rfl).mpr hok) depth tree htree
    refine ⟨{ last.tgt with value := value }, ?_, depth, hcopy⟩
    have htypes : ∀ entry ∈ last.tgt.typeDirectory,
        ∃ t, unroll last.tgt.arena.look depth (.decl entry.2) = some t := by
      intro entry hentry
      obtain ⟨-, type, hnamed, hreached, hentry⟩ := hlast.extra.types entry hentry
      obtain ⟨t, ht⟩ := exists_unroll_of_reached htree hreached
      have hdecl : CopyOk src.arena src.IsNamed (.decl type) :=
        fun view hview => hok view (hreached.trans hview)
      exact ⟨t, hentry.decl hnamed (fun _ => (Rules.ok_iff_copyOk rfl).mpr hdecl) depth t ht⟩
    have hvalid' : Document.Valid { last.tgt with value := value } := by
      refine ⟨hlast.closed, hlast.strings, fun entry hentry => ?_⟩
      obtain ⟨hkey, _, -, -, hmapped⟩ := hlast.extra.types entry hentry
      exact ⟨hkey, hmapped.le⟩
    obtain ⟨dropped, hdropped, -⟩ :=
      compactify_spec standardString hvalid' ⟨⟨tree, hcopy⟩, htypes⟩
    simp only [clone, hrun, Option.bind_eq_bind, Option.bind_some, Option.pure_def, hdropped,
      ite_self]

end Export

theorem typesOf_eq_some {data : Text} {type : ℕ}
    (h : Mapping.typesOf standardString dst data = some type) :
    dst.IsNamed type ∧ standardString dst type = data := by
  obtain ⟨hsame, -⟩ | ⟨entry, hentry, hkey, hvalue⟩ :=
    foldl_update (fun entry : ℕ × ℕ => standardString dst entry.2) (fun entry => some entry.2)
      dst.typeDirectory (fun _ => none) data
  · rw [Mapping.typesOf, hsame] at h
    cases h
  · rw [Mapping.typesOf, hvalue] at h
    cases h
    exact ⟨⟨entry, hentry, rfl⟩, hkey⟩

/-- The names of a document do not depend on what is added to its arena. -/
theorem namedType_congr {doc doc' : Document} {more : Arena} (name : Text)
    (harena : doc'.arena = doc.arena ++ more) (htypes : doc'.typeDirectory = doc.typeDirectory)
    (hkeys : ∀ entry ∈ doc.typeDirectory, doc.arena.IsString entry.1) :
    doc'.namedType name = doc.namedType name := by
  unfold Document.namedType
  rw [htypes]
  congr 1
  refine List.find?_congr fun entry hentry => ?_
  rw [harena, Arena.text_append (hkeys entry hentry).le]

theorem namedType_putType {doc : Document} {key type : ℕ} {name : Text}
    (hkey : doc.arena.text key = some name) (other : Text) :
    (doc.putType key type).namedType other
      = if other = name then some type else doc.namedType other := by
  have hfind : ∀ entries : List (ℕ × ℕ), ((entries.map fun entry =>
      if doc.arena.text entry.1 = some name then (entry.1, type) else entry).find? fun entry =>
        decide (doc.arena.text entry.1 = some other)) = (entries.find? fun entry =>
        decide (doc.arena.text entry.1 = some other)).map fun entry =>
          if doc.arena.text entry.1 = some name then (entry.1, type) else entry := by
    intro entries
    rw [List.find?_map]
    congr 1
    refine List.find?_congr fun entry _ => ?_
    simp only [Function.comp_apply]
    split_ifs <;> rfl
  unfold Document.namedType
  rw [putType_arena]
  unfold Document.putType
  rw [hkey]
  split_ifs with hany hsame hsame
  · subst hsame
    rw [hfind]
    obtain ⟨entry, hentry, htext⟩ := List.any_eq_true.mp hany
    cases hfound : doc.typeDirectory.find? fun entry => decide (doc.arena.text entry.1 = some other) with
    | none => exact absurd htext (by simpa using List.find?_eq_none.mp hfound entry hentry)
    | some found =>
        have htext := List.find?_some hfound
        simp only [decide_eq_true_eq] at htext
        simp only [Option.map_some, if_pos htext]
  · rw [hfind, Option.map_map]
    cases hfound : doc.typeDirectory.find? fun entry => decide (doc.arena.text entry.1 = some other) with
    | none => rfl
    | some found =>
        have htext := List.find?_some hfound
        simp only [decide_eq_true_eq] at htext
        have hne : ¬ doc.arena.text found.1 = some name := fun h =>
          hsame (Option.some.inj (htext.symm.trans h))
        simp only [Option.map_some, Function.comp_apply, if_neg hne]
  · subst hsame
    have hnone : (doc.typeDirectory.find? fun entry => decide (doc.arena.text entry.1 = some other))
        = none := by
      rw [List.find?_eq_none]
      intro entry hentry htext
      exact hany (List.any_eq_true.mpr ⟨entry, hentry, htext⟩)
    simp [List.find?_append, hnone, hkey]
  · have hne : ¬ (some name = some other) := fun h => hsame (Option.some.inj h).symm
    simp [List.find?_append, hkey, hne]

def TypesOk (standardString : Document → ℕ → Text) (src dst : Document) : Prop :=
  Everywhere (importLook standardString src dst)
    (Fits src.arena (SameText standardString src dst)) (.value src.value)

/-- Where the types of the source are apart, a type that is not copied is the one that the target
has, and any other is found by its text afterwards if it has a name. -/
def importRules (standardString : Document → ℕ → Text) (src dst : Document) : Rules where
  src := src
  passed type := (typeFor standardString src dst type).isSome
  reached := Meets standardString src dst
  fits type := TypesOk standardString src dst ∧ SameText standardString src dst type
  fits' copying type :=
    ((∀ other, typeFor standardString src dst type = some other → ∀ tree,
        StandsFor src.arena.look (.decl type) tree → StandsFor dst.arena.look (.decl other) tree) ∧
      (typeFor standardString src dst type = none → src.IsNamed type →
        copying.mapping.typesByData (standardString src type) ≠ none)) ∨
      Meets standardString src dst (.value type)
  tight := Apart standardString src dst
  fits'_extends _ _ _ hext h :=
    h.imp_left fun h => ⟨h.1, fun hnone hnamed => hext.types _ (h.2 hnone hnamed)⟩

structure Registered (standardString : Document → ℕ → Text) (src dst : Document)
    (copying : Copying) (data : Text) (target type : ℕ) : Prop where
  meets : MeetsType standardString src dst type
  reached : Meets standardString src dst (.decl type)
  named : src.IsNamed type
  data : standardString src type = data
  ptrs : copying.mapping.ptrs type ≠ none
  mapped : (importRules standardString src dst).Mapped copying type target
  name : Apart standardString src dst → ∀ name imported,
    Mapping.namesOf src type = some (name, imported) → copying.tgt.namedType name = some target

structure ImportState (standardString : Document → ℕ → Text) (src dst : Document)
    (copying : Copying) : Prop where
  copyingType : copying.mapping.copyingType = .importing
  names : copying.mapping.typeNames = Mapping.namesOf src
  arena : ∃ more, copying.tgt.arena = dst.arena ++ more
  known : ∀ data, Mapping.typesOf standardString dst data ≠ none →
    copying.mapping.typesByData data ≠ none
  data : ∀ data target, copying.mapping.typesByData data = some target →
    Mapping.typesOf standardString dst data = some target ∨
      Mapping.typesOf standardString dst data = none ∧
        ∃ type, Registered standardString src dst copying data target type
  types : ∀ entry ∈ copying.tgt.typeDirectory,
    copying.tgt.arena.IsString entry.1 ∧ entry.2 ≤ copying.tgt.arena.length
  keeps : ImportOk standardString src dst → ∀ name type tree, dst.namedType name = some type →
    StandsFor dst.arena.look (.decl type) tree →
    ∃ type', copying.tgt.namedType name = some type' ∧
      StandsFor copying.tgt.arena.look (.decl type') tree

theorem ImportState.grows {copying copying' : Copying} (h : ImportState standardString src dst copying)
    (hclosed : copying.tgt.arena.Closed) (hgrows : Grows copying copying') :
    ImportState standardString src dst copying' := by
  obtain ⟨more, hmore⟩ := hgrows.arena
  obtain ⟨before, hbefore⟩ := h.arena
  have hnamed : ∀ name, copying'.tgt.namedType name = copying.tgt.namedType name := fun name =>
    namedType_congr name hmore hgrows.typeDirectory fun entry hentry => (h.types entry hentry).1
  refine ⟨hgrows.copyingType.trans h.copyingType, hgrows.typeNames.trans h.names,
    ⟨before ++ more, by rw [hmore, hbefore, List.append_assoc]⟩, ?_, ?_, ?_, ?_⟩
  · rw [hgrows.typesByData]
    exact h.known
  · intro data target hdata
    rw [hgrows.typesByData] at hdata
    refine (h.data data target hdata).imp_right (And.imp_right ?_)
    rintro ⟨type, hreg⟩
    refine ⟨type, hreg.meets, hreg.reached, hreg.named, hreg.data, hgrows.ptrs type hreg.ptrs,
      hreg.mapped.extends hclosed hgrows.extends, fun hapart name imported hname => ?_⟩
    rw [hnamed]
    exact hreg.name hapart name imported hname
  · intro entry hentry
    rw [hgrows.typeDirectory] at hentry
    obtain ⟨hkey, hle⟩ := h.types entry hentry
    refine ⟨?_, hle.trans hgrows.extends.length_le⟩
    rw [hmore]
    exact hkey.append
  · intro hok name type tree hname htree
    obtain ⟨type', hname', htree'⟩ := h.keeps hok name type tree hname htree
    refine ⟨type', by rw [hnamed, hname'], ?_⟩
    rw [hmore, Arena.standsFor_append hclosed (Arena.le_of_standsFor htree')]
    exact htree'

def importing (standardString : Document → ℕ → Text) (src dst : Document) : Setting where
  toRules := importRules standardString src dst
  extra := ImportState standardString src dst
  reached_hangs _ _ ha hc := ha.tail hc
  passed_value ptr cell hreached hat hfits := by
    have hat : src.arena.at? ptr = some ⟨some .typeDecl, cell⟩ := hat
    have hvalue := hfits.1 (.value ptr) hreached
    simp only [Fits, hat] at hvalue
  fits_value _ _ h := .inr h
  extra_grows _ _ hclosed hgrows h := h.grows hclosed hgrows

section Import

variable {middle : Copying} {type target : ℕ} {name : Text} {imported : Bool}

theorem SameText.of_meets (h : TypesOk standardString src dst)
    (hmeets : MeetsType standardString src dst type) : SameText standardString src dst type := by
  obtain ⟨ptr, value, hreached, hat⟩ := hmeets
  simpa only [Fits, hat] using h (.value ptr) hreached

theorem TypesOk.ok {view : View} (h : TypesOk standardString src dst)
    (hreached : Meets standardString src dst view) :
    (importRules standardString src dst).Ok (importRules standardString src dst).fits view :=
  fun c hc => Fits.imp (fun _ hsame => ⟨h, hsame⟩) (h c (hreached.trans hc))

theorem ImportOk.typesOk (h : ImportOk standardString src dst) : TypesOk standardString src dst :=
  Everywhere.imp (fun _ => Fits.imp fun _ => Importable.toSameText) h

theorem ImportOk.importable (h : ImportOk standardString src dst)
    (hmeets : MeetsType standardString src dst type) : Importable standardString src dst type := by
  obtain ⟨ptr, value, hreached, hat⟩ := hmeets
  simpa only [Fits, hat] using h (.value ptr) hreached

/-- What a type that is put under a name and found by its text from now on does to the state. -/
theorem importing_named (hmeets : MeetsType standardString src dst type)
    (hreached : Meets standardString src dst (.decl type))
    (hnone : typeFor standardString src dst type = none)
    (hname : Mapping.namesOf src type = some (name, imported))
    (h : (importing standardString src dst).Sound middle)
    (hmapped : (importing standardString src dst).Mapped
      (((middle.setNamedTypeDeclaration name target).finishDstNamedType
        (standardString src type) target).mapPtrs type target) type target) :
    (importing standardString src dst).Sound
      (((middle.setNamedTypeDeclaration name target).finishDstNamedType
        (standardString src type) target).mapPtrs type target) := by
  obtain ⟨hkeyed, hext, hkey⟩ := h.newVarchar name
  obtain ⟨entry, hentry, htype, htext, -⟩ := namesOf_eq_some hname
  set last := ((middle.setNamedTypeDeclaration name target).finishDstNamedType
    (standardString src type) target).mapPtrs type target with hlast
  have harena : last.tgt.arena = (middle.newVarchar name).2.tgt.arena := putType_arena _ _ _
  have hdata : last.mapping.typesByData = Function.update middle.mapping.typesByData
    (standardString src type) (some target) := rfl
  have hput : ∀ other, last.tgt.namedType other = if other = name then some target else
      (middle.newVarchar name).2.tgt.namedType other := by
    refine namedType_putType ?_
    change (middle.newVarchar name).2.tgt.arena.text (middle.newVarchar name).1 = some name
    simp only [Arena.text, hkey]
  have hextKeyed : Extends (middle.newVarchar name).2 last := by
    refine ⟨⟨[], by rw [harena, List.append_nil]⟩, fun data hsome => ?_⟩
    rw [hdata, Function.update_apply]
    split_ifs
    · exact Option.some_ne_none target
    · exact hsome
  refine h.setNamed hmapped rfl rfl (hext.trans hextKeyed) (show ImportState standardString src dst last
    from ⟨hkeyed.extra.copyingType, hkeyed.extra.names, ?_, ?_, ?_, ?_, ?_⟩)
  · rw [harena]
    exact hkeyed.extra.arena
  · intro data hsome
    exact hextKeyed.types data (hkeyed.extra.known data hsome)
  · intro data target' hfound
    rw [hdata, Function.update_apply] at hfound
    split_ifs at hfound with heq
    · cases hfound
      rw [heq]
      refine .inr ⟨hnone, type, hmeets, hreached, ⟨entry, hentry, htype⟩, rfl, ?_, hmapped, ?_⟩
      · change Function.update middle.mapping.ptrs type (some target) type ≠ none
        rw [Function.update_self]
        exact Option.some_ne_none target
      · intro _ name' imported' hname'
        cases hname.symm.trans hname'
        rw [hput, if_pos rfl]
    · refine (hkeyed.extra.data data target' hfound).imp_right (And.imp_right ?_)
      rintro ⟨other, hreg⟩
      refine ⟨other, hreg.meets, hreg.reached, hreg.named, hreg.data, ?_,
        hreg.mapped.extends hkeyed.closed hextKeyed, fun hapart name' imported' hname' => ?_⟩
      · change Function.update middle.mapping.ptrs type (some target) other ≠ none
        rw [Function.update_apply]
        split_ifs
        · exact Option.some_ne_none target
        · exact hreg.ptrs
      · rw [hput]
        split_ifs with hsame
        · -- two types with one name are one type
          obtain ⟨entry', hentry', htype', htext', -⟩ := namesOf_eq_some hname'
          have heqEntry := hapart.names entry hentry entry' hentry'
            (by rw [htext, htext', hsame])
          refine absurd (?_ : data = standardString src type) heq
          rw [← hreg.data, ← htype', ← heqEntry, htype]
        · exact hreg.name hapart name' imported' hname'
  · intro e he
    rw [harena]
    have hle : target ≤ (middle.newVarchar name).2.tgt.arena.length := by
      rw [← harena]
      exact hmapped.le
    obtain he | rfl | ⟨old, hold, rfl⟩ := mem_putType he
    · exact hkeyed.extra.types e he
    · exact ⟨⟨name, hkey⟩, hle⟩
    · exact ⟨(hkeyed.extra.types old hold).1, hle⟩
  · intro hok name' type' t hname' ht
    obtain ⟨type'', hname'', ht''⟩ := hkeyed.extra.keeps hok name' type' t hname' ht
    rw [hput]
    split_ifs with heq
    · subst heq
      have hfits := hok.importable hmeets
      refine ⟨target, rfl, (hmapped.decl ⟨hok.typesOk, hfits.toSameText⟩
        fun _ => hok.typesOk.ok hreached).standsFor ?_⟩
      exact hfits.name hnone name' imported hname type' hname' t ht
    · rw [harena]
      exact ⟨type'', hname'', ht''⟩

/-- A type that is found by its text. -/
theorem importing_found {copying : Copying} {tree : Lib.Tree Kind} (hdst : dst.Valid)
    (h : (importing standardString src dst).Sound copying)
    (hptr : copying.mapping.ptrs type = none) (hmeets : MeetsType standardString src dst type)
    (htree : unroll src.arena.look depth (.decl type) = some tree)
    (hdata : copying.mapping.typesByData (standardString src type) = some target) :
    (importing standardString src dst).Mapped copying type target := by
  obtain ⟨seen, hseen⟩ := exists_look_of_unroll htree
  obtain hfound | ⟨hnone, other, hreg⟩ := h.extra.data _ target hdata
  · have hfound : typeFor standardString src dst type = some target := hfound
    obtain ⟨more, hmore⟩ := h.extra.arena
    obtain ⟨⟨entry, hentry, rfl⟩, -⟩ := typesOf_eq_some hfound
    have hview : (View.decl entry.2).ptr ≤ dst.arena.length := (hdst.types entry hentry).2
    refine ⟨?_, fun hvalue => .of_decl hseen fun hapart => ?_, fun hfits _ n t ht => ?_,
      fun _ hmatches => ⟨.inl ⟨fun other hother t ht => ?_, fun hnone => ?_⟩, fun hpassed => ?_⟩⟩
    · rw [hmore, List.length_append]
      exact Nat.le_add_right_of_le hview
    · exact absurd hvalue (hapart.values type hmeets (by rw [hfound]; rfl))
    · rw [hmore, Arena.unroll_append hdst.arena hview]
      exact unroll_of_standsFor ht (hfits.2.target entry.2 hfound t ⟨n, ht⟩)
    · cases hfound.symm.trans hother
      obtain ⟨t', ⟨n, hn⟩, hstands⟩ := hmatches
      rw [hmore, Arena.standsFor_append hdst.arena hview] at hstands
      obtain ⟨m, hm⟩ := ht
      cases StandsFor.unique ⟨n, hn⟩ ⟨m, hm⟩
      exact hstands
    · rw [hfound] at hnone
      cases hnone
    · have hpassed : (typeFor standardString src dst type).isSome = false := hpassed
      rw [hfound] at hpassed
      cases hpassed
  · have hnone' : typeFor standardString src dst other = none := by
      rw [typeFor, hreg.data]
      exact hnone
    have hnot : ¬ Apart standardString src dst := by
      intro hapart
      obtain rfl := hapart.texts type other hmeets hreg.meets hreg.named hnone' hreg.data.symm
      exact hreg.ptrs hptr
    refine ⟨hreg.mapped.le, fun _ => .of_decl hseen fun hapart => absurd hapart hnot,
      fun hfits _ n t ht => ?_, fun hapart => absurd hapart hnot⟩
    refine hreg.mapped.decl ⟨hfits.1, .of_meets hfits.1 hreg.meets⟩
      (fun _ => hfits.1.ok hreg.reached) n t (unroll_of_standsFor ht ?_)
    exact hfits.2.source hnone other hreg.meets hreg.named hreg.data t ⟨n, ht⟩

theorem importing_resolve (hsrc : src.Valid) (hdst : dst.Valid) :
    (importing standardString src dst).ResolveSpec standardString := by
  intro depth source type value tree copying hspec h hptr hat hsource hreached htree
  have hmeets : MeetsType standardString src dst type := ⟨source, value, hsource, hat⟩
  cases hdata : copying.mapping.typesByData (standardString src type) with
  | some target =>
      have hmapped := importing_found hdst h hptr hmeets htree hdata
      refine ⟨target, copying, ?_, h.mapPtrs hmapped, .refl copying, hmapped⟩
      simp only [resolveType, h.extra.copyingType]
      rw [show copying.mapping.typesByData
        (standardString (importing standardString src dst).src type) = _ from hdata]
  | none =>
      have hnone : typeFor standardString src dst type = none := by
        by_contra hsome
        exact h.extra.known _ hsome hdata
      have hpassed : (importing standardString src dst).passed type = false := by
        change (typeFor standardString src dst type).isSome = false
        rw [hnone]
        rfl
      obtain ⟨seen, hseen⟩ := exists_look_of_unroll htree
      obtain ⟨target, middle, hrun, hmiddle, hext, ⟨cell, hcell⟩, hcopy⟩ :=
        hspec type tree copying h (fun _ hpart => (hreached hpassed).tail hpart) htree
      have hrun : copyDecl standardString src depth type copying = some (target, middle) := hrun
      rcases hname : middle.mapping.typeNames type with _ | ⟨name, imported⟩
      · have hmapped : (importing standardString src dst).Mapped middle type target := by
          refine .of_decl hseen hcell (fun _ => hpassed) (fun _ => .inl ⟨?_, ?_⟩) hcopy
          · intro other hother
            cases hnone.symm.trans hother
          · intro _ hnamed
            refine absurd ?_ ((namesOf_ne_none hsrc).mpr hnamed)
            rw [← hmiddle.extra.names, hname]
        have hresolve : resolveType standardString src (copyDecl standardString src depth type) type
            copying = some (target, middle) := by
          simp only [resolveType, h.extra.copyingType, hdata, hrun, Option.map_some, hname]
        exact ⟨target, middle, hresolve, hmiddle.mapPtrs hmapped, hext, hmapped⟩
      · obtain ⟨-, hext', -⟩ := hmiddle.newVarchar name
        let named := (middle.setNamedTypeDeclaration name target).finishDstNamedType
          (standardString src type) target
        have hresolve : resolveType standardString src (copyDecl standardString src depth type) type
            copying = some (target, named) := by
          simp only [resolveType, h.extra.copyingType, hdata, hrun, Option.map_some, hname]
          rfl
        have hnamed : Extends middle named := Extends.setNamed hext' rfl fun data hsome => by
          change Function.update middle.mapping.typesByData _ _ data ≠ none
          rw [Function.update_apply]
          split_ifs
          · exact Option.some_ne_none target
          · exact hsome
        have hmapped : (importing standardString src dst).Mapped named type target := by
          refine .of_decl hseen (hnamed.at? hcell) (fun _ => hpassed) (fun _ => .inl ⟨?_, ?_⟩)
            (hcopy.extends hmiddle.closed (Arena.le_of_at? hcell).2.1 hnamed)
          · intro other hother
            cases hnone.symm.trans hother
          · intro _ _
            change Function.update middle.mapping.typesByData _ _ (standardString src type) ≠ none
            rw [Function.update_self]
            exact Option.some_ne_none target
        have hclosed : named.tgt.arena.Closed := by
          obtain ⟨hkeyed, -, -⟩ := hmiddle.newVarchar name
          rw [show named.tgt.arena = (middle.newVarchar name).2.tgt.arena from putType_arena _ _ _]
          exact hkeyed.closed
        refine ⟨target, named, hresolve, ?_, hext.trans hnamed, hmapped⟩
        exact importing_named hmeets (hreached hpassed) hnone
          (by rw [← hmiddle.extra.names, hname]) hmiddle
          (hmapped.extends hclosed (.of_same rfl rfl))

theorem importing_start (hdst : dst.Valid) : (importing standardString src dst).Sound
    ⟨dst, .forImport standardString src dst⟩ := by
  refine ⟨hdst.arena, hdst.strings, fun source target h => ?_,
    ⟨rfl, rfl, ⟨[], (List.append_nil _).symm⟩, fun _ h => h, fun _ _ h => .inl h, hdst.types, ?_⟩⟩
  · cases h
  · intro _ name type tree hname htree
    exact ⟨type, hname, htree⟩

/-- No declaration that is met stands as a value, and types fit. -/
theorem everywhere_fits {fits fits' : ℕ → Prop}
    (h : Everywhere (importLook standardString src dst) (Fits src.arena fits) (.value src.value))
    (hfits : ∀ type, MeetsType standardString src dst type → fits' type) :
    Everywhere (importLook standardString src dst) (Fits src.arena fits') (.value src.value) := by
  intro view hview
  have hone := h view hview
  cases view with
  | decl ptr => trivial
  | value ptr =>
      simp only [Fits] at hone ⊢
      split at hone
      case h_1 => exact hone
      case h_2 type value hat => exact hfits type ⟨ptr, value, hview, hat⟩
      case h_3 => trivial

/-- Where the types of the source are apart, an import that is right has met no type that does not
fit. -/
theorem importOk_of_right {tree : Lib.Tree Kind} {last : Copying} {value : ℕ}
    (htree : unroll src.arena.look depth (.value src.value) = some tree)
    (hlast : (importing standardString src dst).Sound last)
    (hmapped : (importing standardString src dst).Mapped last src.value value)
    (hapart : Apart standardString src dst)
    (hstands : StandsFor last.tgt.arena.look (.value value) tree) (hkeeps : Keeps dst last.tgt) :
    ImportOk standardString src dst := by
  have hunroll : ∀ view, Meets standardString src dst view →
      ∃ t, unroll src.arena.look depth view = some t := fun view hview =>
    exists_unroll_of_reached htree (Arena.reached_of_lookPast hview)
  have hok : (importing standardString src dst).Ok
      ((importing standardString src dst).fits' last) (.value src.value) :=
    (hmapped.value .refl).only hapart ⟨tree, ⟨depth, htree⟩, hstands⟩
  have hunrollType : ∀ type, MeetsType standardString src dst type →
      ∃ t, unroll src.arena.look depth (.decl type) = some t := by
    rintro type ⟨ptr, value, hptr, hat⟩
    obtain ⟨t, ht⟩ := hunroll _ hptr
    refine exists_unroll_of_hangs ht ⟨(.typedValue, [.decl type, .value value]), ?_,
      List.mem_cons_self⟩
    rw [Arena.look_value hat]
    rfl
  have hfits : ∀ type, MeetsType standardString src dst type →
      (∀ other, typeFor standardString src dst type = some other → ∀ t,
        StandsFor src.arena.look (.decl type) t → StandsFor dst.arena.look (.decl other) t) ∧
      (typeFor standardString src dst type = none → src.IsNamed type →
        last.mapping.typesByData (standardString src type) ≠ none) := by
    intro type hmeets
    obtain ⟨t, ht⟩ := hunrollType type hmeets
    obtain ⟨ptr, value, hptr, hat⟩ := hmeets
    have htype : (importing standardString src dst).fits' last type := by
      have hat : (importing standardString src dst).src.arena.at? ptr
        = some ⟨some .typedValue, .typedValue type value⟩ := hat
      simpa only [Fits, hat] using hok (.value ptr) hptr
    obtain htype | hvalue := htype
    · exact htype
    · obtain ⟨t', ht'⟩ := hunroll _ hvalue
      exact (not_value_of_fits (hok (.value type) hvalue) ht ht').elim
  have hsame : ∀ type, MeetsType standardString src dst type →
      SameText standardString src dst type := by
    refine fun type hmeets => ⟨(hfits type hmeets).1, fun hnone other hother hnamed htext t ht => ?_⟩
    have hnone' : typeFor standardString src dst other = none := by
      rw [typeFor, htext]
      exact hnone
    obtain rfl := hapart.texts type other hmeets hother hnamed hnone' htext.symm
    exact ht
  have htypes : TypesOk standardString src dst := everywhere_fits hok hsame
  refine everywhere_fits hok fun type hmeets => ⟨hsame type hmeets, ?_⟩
  intro hnone name imported hname other hother t ht
  obtain ⟨type', htype', hstands'⟩ := hkeeps.types name other t hother ht
  have hnamed : src.IsNamed type := by
    obtain ⟨entry, hentry, heq, -⟩ := namesOf_eq_some hname
    exact ⟨entry, hentry, heq⟩
  obtain ⟨target, hdata⟩ := Option.ne_none_iff_exists'.mp ((hfits type hmeets).2 hnone hnamed)
  obtain hfound | ⟨-, type'', hreg⟩ := hlast.extra.data _ target hdata
  · cases hnone.symm.trans hfound
  · obtain rfl := hapart.texts type'' type hreg.meets hmeets hnamed hnone hreg.data
    obtain ⟨s, hs⟩ := hunrollType type'' hmeets
    cases htype'.symm.trans (hreg.name hapart name imported hname)
    have hcopy := hreg.mapped.decl ⟨htypes, hsame type'' hmeets⟩ (fun _ => htypes.ok hreg.reached)
      depth s hs
    rw [hstands'.unique ⟨depth, hcopy⟩]
    exact ⟨depth, hs⟩

variable (standardString) in
/-- An import returns. The condition is enough for a right copy that leaves the target alone, and
where the types are apart it is necessary. -/
theorem importValue_spec (hsrc : src.Valid) (hdst : dst.Valid) {tree : Lib.Tree Kind}
    (htree : unroll src.arena.look depth (.value src.value) = some tree) :
    ∃ target dst', importValue standardString src dst depth = some (target, dst') ∧
      (ImportOk standardString src dst →
        StandsFor dst'.arena.look (.value target) tree ∧ Keeps dst dst') ∧
      (Apart standardString src dst →
        StandsFor dst'.arena.look (.value target) tree → Keeps dst dst' →
        ImportOk standardString src dst) := by
  obtain ⟨target, last, hrun, hlast, -, hmapped⟩ :=
    (specs (importing_resolve hsrc hdst) depth).2 src.value tree _ (importing_start hdst) .refl htree
  change copyValue standardString src depth src.value _ = _ at hrun
  refine ⟨target, last.tgt, ?_, fun hok => ⟨?_, ?_, hlast.extra.keeps hok⟩,
    importOk_of_right htree hlast hmapped⟩
  · simp only [importValue, hrun, Option.map_some]
  · exact ⟨depth, (hmapped.value .refl).copies (hok.typesOk.ok .refl) depth tree htree⟩
  · intro view t ht
    obtain ⟨more, hmore⟩ := hlast.extra.arena
    rw [hmore, Arena.standsFor_append hdst.arena (Arena.le_of_standsFor ht)]
    exact ht

end Import

/-- A pointer that is added to an array is one more element, and nothing else is written, exactly if
the array has the next slot to itself or has to be enlarged. -/
theorem pushed_right_iff {array : LinkedVector ℕ} {elements : List ℕ}
    (h : LinkedVector.Tracked.Kept ⟨.dyn, array, elements⟩) (ptr : ℕ) (memory : ℕ → ℕ) :
    LinkedVector.Tracked.Right
        ⟨.dyn, LinkedDynVector.pushBack array ptr memory, elements ++ [ptr]⟩ ↔
      (array.size < array.capacity → array.size < array.data.allocated) := by
  have hadmits : LinkedVector.Tracked.Admits ⟨.dyn, array, elements⟩ (.pushBack ptr) :=
    ⟨trivial, fun hfixed => by cases hfixed⟩
  obtain ⟨hnone, -⟩ | ⟨vector, hvector, hright, -⟩ :=
    LinkedVector.Tracked.run_spec h hadmits memory
  · cases hnone
  · cases hvector
    refine hright.trans ?_
    change array.size < (LinkedDynVector.ensure array 1 memory).data.allocated ↔ _
    rw [LinkedDynVector.ensure]
    split_ifs with hfull
    · have hsize : array.size ≤ array.capacity := h.size_le
      obtain ⟨-, -, -, hallocated, hneed⟩ := LinkedDynVector.enlarge_spec memory
        (show array.size ≤ array.capacity + (array.size + 1 - array.capacity) by omega)
      omega
    · omega

def namedValue : Document where
  arena := [⟨some .varchar, .varchar ['T']⟩, ⟨some .typeDecl, .typeDecl 1 [] []⟩,
    ⟨some .varchar, .varchar ['x']⟩, ⟨some .typedValue, .typedValue 2 3⟩,
    ⟨some .varchar, .varchar ['N']⟩]
  value := 4
  typeDirectory := [(5, 2)]
  strings := []

def unnamedValue : Document :=
  { namedValue with typeDirectory := [] }

def otherValue : Document where
  arena := [⟨some .varchar, .varchar ['U']⟩, ⟨some .typeDecl, .typeDecl 1 [] []⟩,
    ⟨some .varchar, .varchar ['y']⟩, ⟨some .typedValue, .typedValue 2 3⟩,
    ⟨some .varchar, .varchar ['M']⟩]
  value := 4
  typeDirectory := [(5, 2)]
  strings := []

/-- All that is seen of the value of a document of this form. -/
theorem everywhere_namedValue {P : View → Prop} (hvalue : P (.value 4)) (hdecl : P (.decl 2))
    (hstring : P (.value 3)) : Everywhere namedValue.arena.look P (.value 4) := by
  refine everywhere_of_below hvalue ?_
  rintro view ⟨seen, hseen, hview⟩
  cases hseen
  simp only [List.mem_cons, List.not_mem_nil, or_false] at hview
  obtain rfl | rfl := hview
  · refine everywhere_of_below hdecl ?_
    rintro view ⟨seen, hseen, hview⟩
    cases hseen
    cases hview
  · refine everywhere_of_below hstring ?_
    rintro view ⟨seen, hseen, hview⟩
    cases hseen
    cases hview

theorem valid_namedValue : namedValue.Valid where
  arena := by
    unfold Arena.Closed
    decide
  strings ptr hptr := by cases hptr
  types entry hentry := by
    obtain rfl := List.mem_singleton.mp hentry
    exact ⟨⟨['N'], rfl⟩, by decide⟩

theorem valid_unnamedValue : unnamedValue.Valid where
  arena := valid_namedValue.arena
  strings ptr hptr := by cases hptr
  types entry hentry := by cases hentry

def plainString (doc : Document) (type : ℕ) : Text :=
  match doc.arena.at? type with
  | some ⟨_, .typeDecl name [] []⟩ => (doc.arena.text name).getD []
  | _ => []

theorem valid_otherValue : otherValue.Valid where
  arena := by
    unfold Arena.Closed
    decide
  strings ptr hptr := by cases hptr
  types entry hentry := by
    obtain rfl := List.mem_singleton.mp hentry
    exact ⟨⟨['M'], rfl⟩, by decide⟩

/-- The only type of the source that an import meets. -/
theorem meetsType_namedValue {type : ℕ} (h : MeetsType plainString namedValue otherValue type) :
    type = 2 := by
  obtain ⟨ptr, value, hreached, hat⟩ := h
  have hview := everywhere_namedValue (P := fun view => ∀ type value ptr, view = .value ptr →
      namedValue.arena.at? ptr = some ⟨some .typedValue, .typedValue type value⟩ → type = 2)
    ?_ ?_ ?_ (.value ptr) (Arena.reached_of_lookPast hreached)
  · exact hview type value ptr rfl hat
  · intro type value ptr hptr hat
    cases hptr
    cases hat
    rfl
  · intro type value ptr hptr
    cases hptr
  · intro type value ptr hptr hat
    cases hptr
    cases hat

theorem importOk_namedValue : ImportOk plainString namedValue otherValue := by
  have himportable : Importable plainString namedValue otherValue 2 := by
    refine ⟨⟨fun other hother => ?_, fun _ other hother _ _ tree htree => ?_⟩, ?_⟩
    · cases hother
    · obtain rfl := meetsType_namedValue hother
      exact htree
    · intro _ name imported hname other hother
      cases hname
      cases hother
  intro view hview
  have hall : Everywhere namedValue.arena.look
      (Fits namedValue.arena (Importable plainString namedValue otherValue)) (.value 4) :=
    everywhere_namedValue himportable trivial trivial
  exact hall view (Arena.reached_of_lookPast hview)

theorem apart_namedValue : Apart plainString namedValue otherValue where
  texts type other htype hother _ _ _ :=
    (meetsType_namedValue htype).trans (meetsType_namedValue hother).symm
  names entry hentry other hother _ :=
    (List.mem_singleton.mp hentry).trans (List.mem_singleton.mp hother).symm
  values type htype hsome := by
    obtain rfl := meetsType_namedValue htype
    cases hsome

def roomyArray : LinkedVector ℕ :=
  ⟨4, 2, ⟨fun _ => 0, 4, false⟩⟩

theorem kept_roomyArray : LinkedVector.Tracked.Kept ⟨.dyn, roomyArray, [0, 0]⟩ :=
  ⟨⟨rfl, by decide, rfl⟩, by decide⟩

end Memoria.LinkedDocument

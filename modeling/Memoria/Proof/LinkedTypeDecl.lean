import Memoria.LinkedTypeDecl
import Memoria.Proof.LinkedVector

/-!
# The lists of a type declaration

A field is its list of elements. Adding appends to the list, unless the list is absent and the arena
leaves its block for it; removing edits the list, and throws in any case.
-/

namespace Memoria

open Lib LinkedVector

theorem LinkedArena.extend_block (arena : LinkedArena) (bytes : ℕ) :
    (arena.extend bytes).block = arena.block ↔ ¬ arena.Moves bytes := by
  unfold extend
  by_cases hmoves : arena.Moves bytes
  · simp [hmoves, enlarge]
  · simp [hmoves]

namespace DeclField

def content : DeclField → List ℕ
  | some vector => vector.elements
  | none => []

structure Fits (vector : LinkedVector ℕ) : Prop where
  size_le : vector.size ≤ vector.capacity
  capacity_le : vector.capacity ≤ vector.data.allocated
  not_overrun : vector.data.overrun = false

def Kept (field : DeclField) : Prop :=
  ∀ vector, field = some vector → Fits vector

theorem count_eq (field : DeclField) : field.count = field.content.length := by
  cases field with
  | none => rfl
  | some vector => exact (Slots.length_contents _ _).symm

theorem get_eq (field : DeclField) (idx : ℕ) : field.get idx = field.content[idx]? := by
  cases field with
  | none => rfl
  | some vector =>
      change (if _ then _ else _) = vector.elements[idx]?
      by_cases hidx : idx < vector.size
      · rw [if_pos hidx]
        exact (Slots.getElem?_contents _ hidx).symm
      · rw [if_neg hidx, List.getElem?_eq_none]
        rw [LinkedVector.elements, Slots.length_contents]
        omega

theorem createFixed_fits (capacity : ℕ) (memory : ℕ → ℕ) : Fits (createFixed capacity memory) := by
  refine ⟨Nat.zero_le _, ?_, ?_⟩
  · have halloc : (createFixed capacity memory).data.allocated = capacity :=
      Slots.fill_allocated _ _ _ _
    exact Nat.le_of_eq halloc.symm
  · rw [createFixed, ← Bool.not_eq_true, Slots.fill_overrun]
    simp

theorem copyTo_fits {vector dst : LinkedVector ℕ} (h : Fits dst) (hroom : vector.size ≤ dst.capacity) :
    Fits (vector.copyTo dst) ∧ (vector.copyTo dst).elements = vector.elements := by
  have halloc := h.capacity_le
  refine ⟨⟨hroom, ?_, ?_⟩, Slots.contents_congr ?_⟩
  · rw [copyTo, Slots.fill_allocated]
    exact halloc
  · rw [copyTo, ← Bool.not_eq_true, Slots.fill_overrun, h.not_overrun]
    simp
    omega
  · intro i hi
    change i < vector.size at hi
    rw [copyTo, Slots.fill_cells, if_pos (by omega)]

/-- The vector that is returned has the elements of the field and room for one more. -/
theorem ensureCapacity_spec {field : DeclField} (h : field.Kept) (arena : LinkedArena) :
    Fits (field.ensureCapacity arena 1).vector ∧
      (field.ensureCapacity arena 1).vector.elements = field.content ∧
      (field.ensureCapacity arena 1).vector.size + 1 ≤
        (field.ensureCapacity arena 1).vector.capacity ∧
      ((field.ensureCapacity arena 1).attached = true ↔
        (field = none → ¬ arena.Moves (arena.vectorBytes 1))) := by
  cases field with
  | none =>
      refine ⟨createFixed_fits _ _, rfl, Nat.le_refl _, ?_⟩
      rw [ensureCapacity, decide_eq_true_eq, eq_comm, LinkedArena.extend_block]
      simp
  | some vector =>
      have hfits := h vector rfl
      have hsize := hfits.size_le
      by_cases hroom : vector.capacity - vector.size ≥ 1
      · simp only [ensureCapacity, if_pos hroom]
        exact ⟨hfits, rfl, by omega, by simp⟩
      · simp only [ensureCapacity, if_neg hroom]
        have hnext : vector.size + 1 ≤ nextSize vector.size 1 :=
          LinkedDynVector.le_nextCapacity _ _ _
        have hroom' : vector.size ≤ nextSize vector.size 1 := Nat.le_of_succ_le hnext
        obtain ⟨hcopied, helements⟩ :=
          copyTo_fits (createFixed_fits (nextSize vector.size 1) arena.memory) hroom'
        exact ⟨hcopied, helements, hnext, by simp⟩

/-- The new element is in the list exactly if the vector is. -/
theorem add_spec {field : DeclField} (h : field.Kept) (arena : LinkedArena) (value : ℕ) :
    ((field = none → ¬ arena.Moves (arena.vectorBytes 1)) →
      (field.add arena value).1.content = field.content ++ [value]) ∧
      (¬ (field = none → ¬ arena.Moves (arena.vectorBytes 1)) →
        (field.add arena value).1.content = field.content) ∧
      (field.add arena value).1.Kept := by
  obtain ⟨hfits, helements, hroom, hattached⟩ := ensureCapacity_spec h arena
  obtain ⟨vector, hpush, hresized, hcontent, hinside⟩ :=
    LinkedVector.pushBack_spec helements hfits.not_overrun hroom value
  have hcapacity := hfits.capacity_le
  rw [← hattached, Bool.not_eq_true]
  refine ⟨?_, ?_, ?_⟩
  · intro hstored
    rw [add, hpush, if_pos hstored]
    exact hcontent
  · intro hlost
    rw [add, hpush, if_neg (by simp [hlost])]
  · intro pushed hpushed
    rw [add, hpush] at hpushed
    by_cases hstored : (field.ensureCapacity arena 1).attached = true
    · rw [if_pos hstored] at hpushed
      cases hpushed
      refine ⟨hresized.size_le hroom, ?_, hinside.mpr (by omega)⟩
      rw [hresized.capacity_eq, hresized.allocated_eq]
      exact hcapacity
    · rw [if_neg hstored] at hpushed
      exact h pushed hpushed

/-- A removal edits the list as it should, and throws. -/
theorem remove_spec {field : DeclField} (h : field.Kept) (idx : ℕ) :
    (field.remove idx).1.content = field.content.eraseIdx idx ∧ (field.remove idx).1.Kept ∧
      (field.remove idx).2 = true := by
  cases field with
  | none => exact ⟨rfl, h, rfl⟩
  | some vector =>
      have hfits := h vector rfl
      have hlength : vector.elements.length = vector.size := Slots.length_contents _ _
      by_cases hidx : idx < vector.size
      · obtain ⟨hresized, hcontent, hinside⟩ := LinkedVector.remove_spec rfl hfits.not_overrun
          (Nat.le_trans hfits.size_le hfits.capacity_le) (show idx + 1 ≤ vector.size from hidx)
        simp only [remove, if_pos hidx, and_true]
        by_cases hlast : vector.size = 1
        · rw [if_pos hlast]
          refine ⟨(List.eq_nil_of_length_eq_zero ?_).symm, fun _ hsome => nomatch hsome⟩
          rw [content, List.length_eraseIdx_of_lt (by omega)]
          omega
        · rw [if_neg hlast]
          refine ⟨hcontent.trans (List.eraseIdx_eq_take_drop_succ _ _).symm, ?_⟩
          intro removed hremoved
          cases hremoved
          refine ⟨hresized.size_le (Nat.le_trans (Nat.sub_le _ _) hfits.size_le), ?_, hinside⟩
          rw [hresized.capacity_eq, hresized.allocated_eq]
          exact hfits.capacity_le
      · simp only [remove, if_neg hidx, and_true]
        refine ⟨?_, h⟩
        rw [content, List.eraseIdx_of_length_le]
        omega

end DeclField

namespace LDTypeDeclaration.EditSession

structure Kept (session : EditSession) : Prop where
  typeParams : session.decl.typeParams.Kept
  ctrArgs : session.decl.ctrArgs.Kept
  params_eq : session.decl.typeParams.content = session.params
  args_eq : session.decl.ctrArgs.content = session.args
  thrown_eq : session.thrown = session.refused

/-- What is read of the fields is their lists. -/
theorem right_iff (session : EditSession) :
    session.Right ↔ session.decl.typeParams.content = session.params ∧
      session.decl.ctrArgs.content = session.args ∧ session.thrown = session.refused := by
  constructor
  · intro h
    refine ⟨List.ext_getElem? ?_, List.ext_getElem? ?_, h.thrown_eq⟩
    · intro idx
      rw [← DeclField.get_eq]
      exact h.getTypeDeclaration_eq idx
    · intro idx
      rw [← DeclField.get_eq]
      exact h.getConstructorArg_eq idx
  · rintro ⟨hparams, hargs, hthrown⟩
    constructor
    · rw [LDTypeDeclaration.params, DeclField.count_eq, hparams]
    · intro idx
      rw [getTypeDeclaration, DeclField.get_eq, hparams]
    · rw [constructorArgs, DeclField.count_eq, hargs]
    · intro idx
      rw [getConstructorArg, DeclField.get_eq, hargs]
    · exact hthrown

variable {session session' : EditSession}

theorem Kept.right (h : session.Kept) : session.Right :=
  (right_iff session).mpr ⟨h.params_eq, h.args_eq, h.thrown_eq⟩

/-- A call within the condition changes the declaration as it changes the lists. -/
theorem step_kept (op : EditOp) (h : session.Kept) (hsound : session.StepSound op)
    (hstep : session.step op = some session') : session'.Kept := by
  cases op with
  | addTypeDeclaration value before =>
      cases hstep
      obtain ⟨hadded, -, hkept⟩ := DeclField.add_spec h.typeParams
        (before.foldl LinkedArena.extend session.arena) value
      refine ⟨hkept, h.ctrArgs, ?_, h.args_eq, rfl⟩
      rw [← h.params_eq]
      exact hadded hsound
  | addConstructorArg value before =>
      cases hstep
      obtain ⟨hadded, -, hkept⟩ := DeclField.add_spec h.ctrArgs
        (before.foldl LinkedArena.extend session.arena) value
      refine ⟨h.typeParams, hkept, h.params_eq, ?_, rfl⟩
      rw [← h.args_eq]
      exact hadded hsound
  | removeTypeDeclaration idx =>
      cases hstep
      obtain ⟨hremoved, hkept, hthrown⟩ := DeclField.remove_spec h.typeParams idx
      refine ⟨hkept, h.ctrArgs, ?_, h.args_eq, ?_⟩
      · rw [← h.params_eq]
        exact hremoved
      · change (session.decl.typeParams.remove idx).2 = decide (session.params.length ≤ idx)
        rw [hthrown, ← h.params_eq, ← DeclField.count_eq]
        have hrange : session.decl.params ≤ idx := hsound
        exact (decide_eq_true hrange).symm
  | removeConstructorArg idx =>
      cases hstep
      obtain ⟨hremoved, hkept, hthrown⟩ := DeclField.remove_spec h.ctrArgs idx
      refine ⟨h.typeParams, hkept, h.params_eq, ?_, ?_⟩
      · rw [← h.args_eq]
        exact hremoved
      · change (session.decl.ctrArgs.remove idx).2 = decide (session.args.length ≤ idx)
        rw [hthrown, ← h.args_eq, ← DeclField.count_eq]
        have hrange : session.decl.constructorArgs ≤ idx := hsound
        exact (decide_eq_true hrange).symm

theorem step_breaks (op : EditOp) (h : session.Kept) (hunsound : ¬ session.StepSound op) :
    ∃ session', session.step op = some session' ∧ ¬ session'.Right := by
  have hnext : ∃ session', session.step op = some session' := by
    cases op <;> exact ⟨_, rfl⟩
  obtain ⟨session', hstep⟩ := hnext
  refine ⟨session', hstep, ?_⟩
  rw [right_iff]
  rintro ⟨hparams, hargs, hthrown⟩
  cases op with
  | addTypeDeclaration value before =>
      cases hstep
      obtain ⟨-, hlost, -⟩ := DeclField.add_spec h.typeParams
        (before.foldl LinkedArena.extend session.arena) value
      have hsame := ((hlost hunsound).symm.trans hparams).symm
      rw [h.params_eq] at hsame
      simp at hsame
  | addConstructorArg value before =>
      cases hstep
      obtain ⟨-, hlost, -⟩ := DeclField.add_spec h.ctrArgs
        (before.foldl LinkedArena.extend session.arena) value
      have hsame := ((hlost hunsound).symm.trans hargs).symm
      rw [h.args_eq] at hsame
      simp at hsame
  | removeTypeDeclaration idx =>
      cases hstep
      change (session.decl.typeParams.remove idx).2 = decide (session.params.length ≤ idx)
        at hthrown
      rw [(DeclField.remove_spec h.typeParams idx).2.2, ← h.params_eq, ← DeclField.count_eq]
        at hthrown
      have hrange : session.decl.params ≤ idx := of_decide_eq_true hthrown.symm
      exact hunsound hrange
  | removeConstructorArg idx =>
      cases hstep
      change (session.decl.ctrArgs.remove idx).2 = decide (session.args.length ≤ idx) at hthrown
      rw [(DeclField.remove_spec h.ctrArgs idx).2.2, ← h.args_eq, ← DeclField.count_eq]
        at hthrown
      have hrange : session.decl.constructorArgs ≤ idx := of_decide_eq_true hthrown.symm
      exact hunsound hrange

/-- Over every run from a declaration that holds its lists: what is read stays what the lists have,
and what is thrown what should be, in every state exactly when no step removes an element that is
there, nor adds the first one of a list where the arena has to move for it. -/
theorem declaration_edited_iff (h : session.Kept) (ops : List EditOp) :
    EveryState step Right session ops ↔ EveryStep step StepSound session ops := by
  have hkeep : ∀ session op session', Kept session → StepSound session op →
      step session op = some session' → Kept session' :=
    fun session op session' h hsound hstep => step_kept op h hsound hstep
  constructor
  · intro hrun
    refine EveryStep.of_broken (R := fun _ _ => True) hkeep ?_ h hrun
      (EveryStep.trivial_of (fun _ _ => True.intro) _ _)
    exact fun session op h _ _ hunsound => step_breaks op h hunsound
  · exact EveryState.of_invariant hkeep (fun session h => h.right) h

def fresh : EditSession :=
  ⟨⟨none, none⟩, ⟨64, 16, 0, fun _ => 0⟩, [], [], false, false⟩

theorem fresh_kept : fresh.Kept :=
  ⟨fun _ h => absurd h (by simp [fresh]), fun _ h => absurd h (by simp [fresh]), rfl, rfl, rfl⟩

theorem declaration_edited_iff_fresh :
    fresh.Kept ∧ (EveryState step Right fresh [.addTypeDeclaration 40 [20], .removeTypeDeclaration 1]
      ↔ EveryStep step StepSound fresh
        [.addTypeDeclaration 40 [20], .removeTypeDeclaration 1]) :=
  ⟨fresh_kept, declaration_edited_iff fresh_kept _⟩

/-- The removal of the one parameter there is takes it out and throws. -/
theorem removal_throws :
    ¬ ∀ (session : EditSession) (ops : List EditOp), session.Kept →
      EveryState step Right session ops := by
  intro h
  have hrun := h fresh [.addTypeDeclaration 40 [20], .removeTypeDeclaration 0] fresh_kept
  have hlast := (hrun.2 _ rfl).2 _ rfl
  exact absurd hlast.thrown_eq (by decide)

end LDTypeDeclaration.EditSession

end Memoria

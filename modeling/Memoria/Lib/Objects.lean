import Mathlib.Logic.Function.Basic
import Memoria.Lib.Run

/-!
# Objects that are copied and moved

Objects of one class are made, changed, copied and moved, and each stands for an abstract value.
What holds of every object over whole runs follows from one lemma for the changes and one for the
ways to copy or move, and so does the exact condition for it. An operation gives `none` where the
code has no defined behaviour.
-/

namespace Memoria.Lib

structure ObjectClass (B A C E T : Type) where
  make : C → B
  made : C → A
  promised : E → B → Bool
  change : E → B → Option B
  changed : E → B → A → A
  transfer : T → B → Option B
  moves : T → Bool

namespace ObjectClass

variable {B A C E T : Type}

inductive Op (C E T : Type) where
  | make (i : Nat) (args : C)
  | change (i : Nat) (edit : E)
  | transfer (way : T) (source target : Nat)

abbrev Objects (B A : Type) : Type := Nat → Option (B × A)

variable (cls : ObjectClass B A C E T)

def promisedOp (objects : Objects B A) : Op C E T → Bool
  | .make _ _ => true
  | .change i edit => (objects i).any fun object => cls.promised edit object.1
  | .transfer _ source target => (objects source).isSome && decide (source ≠ target)

def step (objects : Objects B A) (op : Op C E T) : Option (Objects B A) :=
  if cls.promisedOp objects op then
    match op with
    | .make i args => some (Function.update objects i (some (cls.make args, cls.made args)))
    | .change i edit =>
        (objects i).bind fun (b, a) => (cls.change edit b).map fun b' =>
          Function.update objects i (some (b', cls.changed edit b a))
    | .transfer way source target =>
        (objects source).bind fun (b, a) => (cls.transfer way b).map fun b' =>
          Function.update
            (if cls.moves way then Function.update objects source none else objects) target
            (some (b', a))
  else none

def All (Honest : B → A → Prop) (objects : Objects B A) : Prop :=
  ∀ i object, objects i = some object → Honest object.1 object.2

def Exact (exactChange : E → B → Prop) (exactTransfer : T → B → Prop) (objects : Objects B A) :
    Op C E T → Prop
  | .make _ _ => True
  | .change i edit => ∀ object, objects i = some object → exactChange edit object.1
  | .transfer way source _ => ∀ object, objects source = some object → exactTransfer way object.1

def Goes (Honest : B → A → Prop) (objects : Objects B A) (op : Op C E T) : Prop :=
  cls.promisedOp objects op = true →
    ∃ objects', cls.step objects op = some objects' ∧ All Honest objects'

variable {cls} {Honest : B → A → Prop} {exactChange : E → B → Prop} {exactTransfer : T → B → Prop}

theorem all_update_iff {objects : Objects B A} (hall : All Honest objects) (i : Nat) (b : B)
    (a : A) : All Honest (Function.update objects i (some (b, a))) ↔ Honest b a := by
  constructor
  · intro hupdated
    exact hupdated i (b, a) (Function.update_self ..)
  · intro hone j object hobject
    by_cases hj : j = i
    · subst hj
      rw [Function.update_self] at hobject
      obtain rfl := Option.some.inj hobject
      exact hone
    · rw [Function.update_of_ne hj] at hobject
      exact hall j object hobject

theorem All.remove {objects : Objects B A} (hall : All Honest objects) (i : Nat) :
    All Honest (Function.update objects i none) := by
  intro j object hobject
  by_cases hj : j = i
  · subst hj
    rw [Function.update_self] at hobject
    exact nomatch hobject
  · rw [Function.update_of_ne hj] at hobject
    exact hall j object hobject

section Runs

variable (hmake : ∀ args, Honest (cls.make args) (cls.made args))
  (hchange : ∀ edit b a, Honest b a → cls.promised edit b = true →
    ((∃ b', cls.change edit b = some b' ∧ Honest b' (cls.changed edit b a)) ↔ exactChange edit b))
  (htransfer : ∀ way b a, Honest b a →
    ((∃ b', cls.transfer way b = some b' ∧ Honest b' a) ↔ exactTransfer way b))

include hmake hchange htransfer

/-- One operation. -/
theorem step_iff {objects : Objects B A} (hall : All Honest objects) {op : Op C E T}
    (hpromised : cls.promisedOp objects op = true) :
    (∃ objects', cls.step objects op = some objects' ∧ All Honest objects') ↔
      Exact exactChange exactTransfer objects op := by
  cases op with
  | make i args =>
      refine iff_of_true ⟨_, if_pos hpromised, ?_⟩ trivial
      exact (all_update_iff hall i _ _).mpr (hmake args)
  | change i edit =>
      have hedit : ∃ object, objects i = some object ∧ cls.promised edit object.1 = true := by
        simpa [promisedOp, Option.any_eq_true] using hpromised
      obtain ⟨⟨b, a⟩, hobject, hedit⟩ := hedit
      have hstep : cls.step objects (.change i edit) = (cls.change edit b).map fun b' =>
          Function.update objects i (some (b', cls.changed edit b a)) := by
        simp only [step, hpromised, if_true, hobject, Option.bind_some]
      have hexact : Exact exactChange exactTransfer objects (.change i edit : Op C E T) ↔
          exactChange edit b := by
        simp [Exact, hobject]
      rw [hstep, hexact, ← hchange edit b a (hall i _ hobject) hedit]
      simp only [Option.map_eq_some_iff]
      constructor
      · rintro ⟨_, ⟨b', hb', rfl⟩, hgood⟩
        exact ⟨b', hb', (all_update_iff hall i _ _).mp hgood⟩
      · rintro ⟨b', hb', hgood⟩
        exact ⟨_, ⟨b', hb', rfl⟩, (all_update_iff hall i _ _).mpr hgood⟩
  | transfer way source target =>
      have hsource : ∃ object, objects source = some object := by
        simp only [promisedOp, Bool.and_eq_true] at hpromised
        exact Option.isSome_iff_exists.mp hpromised.1
      obtain ⟨⟨b, a⟩, hobject⟩ := hsource
      have hstep : cls.step objects (.transfer way source target) = (cls.transfer way b).map fun b' =>
          Function.update
            (if cls.moves way then Function.update objects source none else objects) target
            (some (b', a)) := by
        simp only [step, hpromised, if_true, hobject, Option.bind_some]
      have hexact : Exact exactChange exactTransfer objects (.transfer way source target : Op C E T) ↔
          exactTransfer way b := by
        simp [Exact, hobject]
      have hleft : All Honest
          (if cls.moves way then Function.update objects source none else objects) := by
        split
        · exact hall.remove source
        · exact hall
      rw [hstep, hexact, ← htransfer way b a (hall source _ hobject)]
      simp only [Option.map_eq_some_iff]
      constructor
      · rintro ⟨_, ⟨b', hb', rfl⟩, hgood⟩
        exact ⟨b', hb', (all_update_iff hleft target _ _).mp hgood⟩
      · rintro ⟨b', hb', hgood⟩
        exact ⟨_, ⟨b', hb', rfl⟩, (all_update_iff hleft target _ _).mpr hgood⟩

/-- A run of promised operations goes through with every object standing for its value just where
its operations meet the condition. -/
theorem run_iff (ops : List (Op C E T)) :
    EveryStep cls.step (cls.Goes Honest) (fun _ => none) ops ↔
      EveryStep cls.step (fun objects op => cls.promisedOp objects op = true →
        Exact exactChange exactTransfer objects op) (fun _ => none) ops := by
  have hstart : All Honest (fun _ => none : Objects B A) := fun _ _ hobject => nomatch hobject
  have hnext {objects objects' : Objects B A} {op : Op C E T} (hall : All Honest objects)
      (hgoes : cls.Goes Honest objects op) (hstep : cls.step objects op = some objects') :
      All Honest objects' := by
    have hpromised : cls.promisedOp objects op = true := (Option.ite_none_right_eq_some.mp hstep).1
    obtain ⟨reached, hreached, hgood⟩ := hgoes hpromised
    rwa [Option.some.inj (hreached.symm.trans hstep)] at hgood
  constructor
  · refine EveryStep.of_invariant (I := All Honest) (fun _ _ _ => hnext) ?_ hstart
    intro objects op hall hgoes hpromised
    exact (step_iff hmake hchange htransfer hall hpromised).mp (hgoes hpromised)
  · have hgoes {objects : Objects B A} {op : Op C E T} (hall : All Honest objects)
        (hexact : cls.promisedOp objects op = true → Exact exactChange exactTransfer objects op) :
        cls.Goes Honest objects op := fun hpromised =>
      (step_iff hmake hchange htransfer hall hpromised).mpr (hexact hpromised)
    exact EveryStep.of_invariant (I := All Honest)
      (fun _ _ _ hall hexact => hnext hall (hgoes hall hexact)) (fun _ _ => hgoes) hstart

end Runs

end ObjectClass

end Memoria.Lib

import Mathlib.Tactic.Cases

/-!
# Actions that may fail

An action reports how it went, and leaves a state in either case. A list of actions runs up to the
first one that fails, and what the ones before it have done stays.
-/

namespace Memoria.Lib

abbrev Action (ε σ : Type) : Type := σ → Except ε Unit × σ

variable {ε σ : Type}

def runActions : List (Action ε σ) → Action ε σ
  | [], s => (.ok (), s)
  | action :: actions, s =>
      match action s with
      | (.ok (), s') => runActions actions s'
      | (.error e, s') => (.error e, s')

def reporting (outcome : Except ε Unit) : Action ε σ := fun s => (outcome, s)

inductive Applied : List (Action ε σ) → σ → σ → Prop
  | nil (s : σ) : Applied [] s s
  | cons {action : Action ε σ} {actions : List (Action ε σ)} {s s' t : σ}
      (hfirst : action s = (.ok (), s')) (hrest : Applied actions s' t) :
      Applied (action :: actions) s t

inductive FailsWith (e : ε) : List (Action ε σ) → σ → Prop
  | here {action : Action ε σ} {actions : List (Action ε σ)} {s s' : σ}
      (hfirst : action s = (.error e, s')) : FailsWith e (action :: actions) s
  | later {action : Action ε σ} {actions : List (Action ε σ)} {s s' : σ}
      (hfirst : action s = (.ok (), s')) (hrest : FailsWith e actions s') :
      FailsWith e (action :: actions) s

variable {actions : List (Action ε σ)} {s t : σ} {e : ε}

theorem runActions_ok_iff : runActions actions s = (.ok (), t) ↔ Applied actions s t := by
  constructor
  · intro hrun
    induction actions generalizing s with
    | nil =>
        cases hrun
        exact .nil _
    | cons action actions ih =>
        rw [runActions] at hrun
        split at hrun
        next s' hfirst => exact .cons hfirst (ih hrun)
        next e s' hfirst => cases hrun
  · intro happlied
    induction happlied with
    | nil s => rfl
    | cons hfirst _ ih =>
        rw [runActions, hfirst]
        exact ih

theorem runActions_error_iff : (runActions actions s).1 = .error e ↔ FailsWith e actions s := by
  constructor
  · intro hrun
    induction actions generalizing s with
    | nil => cases hrun
    | cons action actions ih =>
        rw [runActions] at hrun
        split at hrun
        next s' hfirst => exact .later hfirst (ih hrun)
        next e' s' hfirst =>
          cases hrun
          exact .here hfirst
  · intro hfails
    induction hfails with
    | here hfirst => rw [runActions, hfirst]
    | later hfirst _ ih =>
        rw [runActions, hfirst]
        exact ih

theorem FailsWith.not_applied (h : FailsWith e actions s) : ¬ Applied actions s t := by
  intro happlied
  have hrun := runActions_error_iff.mpr h
  rw [runActions_ok_iff.mpr happlied] at hrun
  cases hrun

theorem FailsWith.unique {e' : ε} (h : FailsWith e actions s) (h' : FailsWith e' actions s) :
    e = e' := by
  have hrun := runActions_error_iff.mpr h
  rw [runActions_error_iff.mpr h'] at hrun
  exact (Except.error.inj hrun).symm

/-- Reports leave the state as it is, and are the same in every state. -/
theorem runActions_reporting (outcomes : List (Except ε Unit)) (s t : σ) :
    runActions (outcomes.map reporting) t = ((runActions (outcomes.map reporting) s).1, t) := by
  induction outcomes with
  | nil => rfl
  | cons outcome outcomes ih =>
      cases outcome with
      | ok _ => exact ih
      | error e => rfl

end Memoria.Lib

import Mathlib.Tactic.ByContra

/-!
# Runs of a partial step function

A step gives `none` where the system has no defined behaviour, and a run ends there. A property of
a run is a property of every state it visits, and a condition on a run is a condition on every step
it takes.
-/

namespace Memoria.Lib

variable {σ ι : Type} (step : σ → ι → Option σ)

def EveryState (Q : σ → Prop) : σ → List ι → Prop
  | s, [] => Q s
  | s, op :: ops => Q s ∧ ∀ s', step s op = some s' → EveryState Q s' ops

def EveryStep (P : σ → ι → Prop) : σ → List ι → Prop
  | _, [] => True
  | s, op :: ops => P s op ∧ ∀ s', step s op = some s' → EveryStep P s' ops

variable {step} {P : σ → ι → Prop} {Q I : σ → Prop}

/-- The invariant rule. -/
theorem EveryState.of_invariant (hstep : ∀ s op s', I s → P s op → step s op = some s' → I s')
    (hkeep : ∀ s, I s → Q s) {s : σ} {ops : List ι} (hs : I s) (hrun : EveryStep step P s ops) :
    EveryState step Q s ops := by
  induction ops generalizing s with
  | nil => exact hkeep s hs
  | cons op ops ih =>
      refine ⟨hkeep s hs, ?_⟩
      intro s' hs'
      exact ih (hstep s op s' hs hrun.1 hs') (hrun.2 s' hs')

/-- A run that keeps `Q`, each step with outcome `R`, takes no step that is sure to break one of
them. -/
theorem EveryStep.of_broken {R : σ → ι → Prop}
    (hstep : ∀ s op s', I s → P s op → step s op = some s' → I s')
    (hbreak : ∀ s op, I s → Q s → R s op → ¬ P s op → ∃ s', step s op = some s' ∧ ¬ Q s') {s : σ}
    {ops : List ι} (hs : I s) (hrun : EveryState step Q s ops) (hout : EveryStep step R s ops) :
    EveryStep step P s ops := by
  induction ops generalizing s with
  | nil => trivial
  | cons op ops ih =>
      obtain ⟨hq, hrest⟩ := hrun
      have hnext : ∀ s', step s op = some s' → Q s' := by
        intro s' hs'
        cases ops with
        | nil => exact hrest s' hs'
        | cons op' ops => exact (hrest s' hs').1
      have hp : P s op := by
        by_contra hp
        obtain ⟨s', hs', hnq⟩ := hbreak s op hs hq hout.1 hp
        exact hnq (hnext s' hs')
      exact ⟨hp, fun s' hs' => ih (hstep s op s' hs hp hs') (hrest s' hs') (hout.2 s' hs')⟩

theorem EveryStep.trivial_of (hP : ∀ s op, P s op) (s : σ) (ops : List ι) :
    EveryStep step P s ops := by
  induction ops generalizing s with
  | nil => trivial
  | cons op ops ih => exact ⟨hP s op, fun s' _ => ih s'⟩

/-- A run that keeps `Q` takes no step that is sure to break it. -/
theorem EveryStep.of_everyState (hstep : ∀ s op s', I s → step s op = some s' → I s')
    (hbreak : ∀ s op, I s → Q s → ¬ P s op → ∃ s', step s op = some s' ∧ ¬ Q s') {s : σ}
    {ops : List ι} (hs : I s) (hrun : EveryState step Q s ops) : EveryStep step P s ops :=
  of_broken (fun s op s' hI _ => hstep s op s' hI) (fun s op hI hQ _ => hbreak s op hI hQ) hs hrun
    (trivial_of (fun _ _ => True.intro) s ops)

/-- The invariant rule for the outcomes of the steps. -/
theorem EveryStep.of_invariant {R : σ → ι → Prop}
    (hstep : ∀ s op s', I s → P s op → step s op = some s' → I s')
    (hkeep : ∀ s op, I s → P s op → R s op) {s : σ} {ops : List ι} (hs : I s)
    (hrun : EveryStep step P s ops) : EveryStep step R s ops := by
  induction ops generalizing s with
  | nil => trivial
  | cons op ops ih =>
      refine ⟨hkeep s op hs hrun.1, ?_⟩
      intro s' hs'
      exact ih (hstep s op s' hs hrun.1 hs') (hrun.2 s' hs')

instance EveryStep.decidable [∀ s op, Decidable (P s op)] :
    ∀ s ops, Decidable (EveryStep step P s ops)
  | _, [] => inferInstanceAs (Decidable True)
  | s, op :: ops =>
      match hnext : step s op with
      | none => decidable_of_iff (P s op)
          ⟨fun hp => ⟨hp, fun _ hs' => absurd (hnext.symm.trans hs') (by simp)⟩, fun h => h.1⟩
      | some s' =>
          have := EveryStep.decidable s' ops
          decidable_of_iff (P s op ∧ EveryStep step P s' ops)
            ⟨fun h => ⟨h.1, fun t ht => Option.some.inj (hnext.symm.trans ht) ▸ h.2⟩,
              fun h => ⟨h.1, h.2 s' hnext⟩⟩

/-- What holds of every state holds of the last one. -/
theorem EveryState.last {s s' : σ} {ops : List ι} (h : EveryState step Q s ops)
    (hrun : ops.foldlM step s = some s') : Q s' := by
  induction ops generalizing s with
  | nil =>
      cases hrun
      exact h
  | cons op ops ih =>
      simp only [List.foldlM_cons, Option.bind_eq_bind, Option.bind_eq_some_iff] at hrun
      obtain ⟨t, ht, hrun⟩ := hrun
      exact ih (h.2 t ht) hrun

/-- What holds of every step holds of the last one. -/
theorem EveryStep.last {s s' : σ} {ops : List ι} {op : ι} (h : EveryStep step P s (ops ++ [op]))
    (hrun : ops.foldlM step s = some s') : P s' op := by
  induction ops generalizing s with
  | nil =>
      cases hrun
      exact h.1
  | cons a ops ih =>
      simp only [List.foldlM_cons, Option.bind_eq_bind, Option.bind_eq_some_iff] at hrun
      obtain ⟨t, ht, hrun⟩ := hrun
      exact ih (h.2 t ht) hrun

/-- The first part of a run. -/
theorem EveryStep.append_left {s : σ} {ops ops' : List ι} (h : EveryStep step P s (ops ++ ops')) :
    EveryStep step P s ops := by
  induction ops generalizing s with
  | nil => trivial
  | cons op ops ih => exact ⟨h.1, fun s' hs' => ih (h.2 s' hs')⟩

/-- What is left of a run. -/
theorem EveryStep.append_right {s s' : σ} {ops ops' : List ι}
    (h : EveryStep step P s (ops ++ ops')) (hrun : ops.foldlM step s = some s') :
    EveryStep step P s' ops' := by
  induction ops generalizing s with
  | nil =>
      cases hrun
      exact h
  | cons op ops ih =>
      simp only [List.foldlM_cons, Option.bind_eq_bind, Option.bind_eq_some_iff] at hrun
      obtain ⟨t, ht, hrun⟩ := hrun
      exact ih (h.2 t ht) hrun

instance decidableForallSome {α : Type} {Q : α → Prop} [DecidablePred Q] :
    (o : Option α) → Decidable (∀ a, o = some a → Q a)
  | none => isTrue fun _ h => nomatch h
  | some a => decidable_of_iff (Q a) ⟨fun h _ hb => Option.some.inj hb ▸ h, fun h => h a rfl⟩

instance decidableExistsSome {α : Type} {Q : α → Prop} [DecidablePred Q] (o : Option α) :
    Decidable (∃ a, o = some a ∧ Q a) :=
  decidable_of_iff (o.any fun a => decide (Q a)) (by cases o <;> simp)

/-- What a fold of partial steps keeps. -/
theorem foldlM_keeps (hstep : ∀ s op s', I s → step s op = some s' → I s') {l : List ι} {s s' : σ}
    (hs : I s)
    (h : l.foldlM step s = some s') : I s' := by
  induction l generalizing s with
  | nil =>
      cases h
      exact hs
  | cons a l ih =>
      simp only [List.foldlM_cons, Option.bind_eq_bind, Option.bind_eq_some_iff] at h
      obtain ⟨t, ht, h⟩ := h
      exact ih (hstep s a t hs ht) h

end Memoria.Lib

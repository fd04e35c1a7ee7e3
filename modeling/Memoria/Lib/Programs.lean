/-!
# Programs that fail and need not return

A program has a state, also where it fails, and `none` says that it does not return. `Ends` is the
triple of a program: what holds where it returns, and what holds where it fails.
-/

namespace Memoria.Lib

abbrev Prog (σ ε α : Type) : Type := ExceptT ε (StateT σ Option) α

namespace Prog

variable {σ ε α β : Type}

def of (f : σ → Option (Except ε α × σ)) : Prog σ ε α := f

def outcome (x : Prog σ ε α) (s : σ) : Option (Except ε α × σ) := x s

theorem of_outcome (f : σ → Option (Except ε α × σ)) (s : σ) : (of f).outcome s = f s := rfl

def hang : Prog σ ε α := of fun _ => none

def attempt (x : Prog σ ε α) : Prog σ ε (Except ε α) :=
  of fun s => (x.outcome s).map fun (r, s') => (.ok r, s')

def Either (ok : α → σ → Prop) (err : ε → σ → Prop) : Except ε α → σ → Prop
  | .ok a, s => ok a s
  | .error e, s => err e s

def Ends (x : Prog σ ε α) (s : σ) (ok : α → σ → Prop) (err : ε → σ → Prop) : Prop :=
  ∀ r s', x.outcome s = some (r, s') → Either ok err r s'

def Returns (x : Prog σ ε α) (s : σ) (ok : α → σ → Prop) : Prop :=
  ∃ a s', x.outcome s = some (.ok a, s') ∧ ok a s'

variable {x : Prog σ ε α} {f : α → Prog σ ε β} {s s' : σ} {ok ok' : α → σ → Prop}
  {err err' : ε → σ → Prop}

theorem bind_outcome {a : α} (hx : x.outcome s = some (.ok a, s')) :
    (x >>= f).outcome s = (f a).outcome s' := by
  change (x.outcome s).bind (fun p => ExceptT.bindCont f p.1 p.2) = _
  rw [hx]
  rfl

theorem bind_outcome_error {e : ε} (hx : x.outcome s = some (.error e, s')) :
    (x >>= f).outcome s = some (.error e, s') := by
  change (x.outcome s).bind (fun p => ExceptT.bindCont f p.1 p.2) = _
  rw [hx]
  rfl

theorem ends_of_outcome {r : Except ε α} (hx : x.outcome s = some (r, s'))
    (h : Either ok err r s') : Ends x s ok err := by
  intro r₁ s₁ hr
  obtain ⟨rfl, rfl⟩ := Prod.mk.inj (Option.some.inj (hx.symm.trans hr))
  exact h

theorem ends_pure {a : α} (h : ok a s) : Ends (pure a : Prog σ ε α) s ok err :=
  ends_of_outcome (r := .ok a) rfl h

theorem ends_throw {e : ε} (h : err e s) : Ends (throw e : Prog σ ε α) s ok err :=
  ends_of_outcome (r := .error e) rfl h

theorem ends_hang : Ends (hang : Prog σ ε α) s ok err :=
  fun _ _ hr => absurd hr.symm (Option.some_ne_none _)

theorem Ends.imp (h : Ends x s ok err) (hok : ∀ a s', ok a s' → ok' a s')
    (herr : ∀ e s', err e s' → err' e s') : Ends x s ok' err' := by
  intro r s' hr
  cases r with
  | ok a => exact hok a s' (h _ _ hr)
  | error e => exact herr e s' (h _ _ hr)

/-- The rule for programs one after the other. -/
theorem Ends.bind {ok' : β → σ → Prop} (h : Ends x s ok err)
    (hf : ∀ a s', ok a s' → Ends (f a) s' ok' err) : Ends (x >>= f) s ok' err := by
  intro r s' hr
  change (x.outcome s).bind (fun p => ExceptT.bindCont f p.1 p.2) = some (r, s') at hr
  obtain ⟨⟨r₁, s₁⟩, hx, hrest⟩ := Option.bind_eq_some_iff.mp hr
  cases r₁ with
  | ok a => exact hf a s₁ (h _ _ hx) r s' hrest
  | error e =>
      obtain ⟨rfl, rfl⟩ := Prod.mk.inj (Option.some.inj hrest)
      exact h _ _ hx

/-- The same where the first program is known to return. -/
theorem ends_bind {ok' : β → σ → Prop} {a : α} (hx : x.outcome s = some (.ok a, s'))
    (hf : Ends (f a) s' ok' err) : Ends (x >>= f) s ok' err := by
  intro r s₁ hr
  exact hf r s₁ ((bind_outcome hx).symm.trans hr)

theorem Ends.attempt (h : Ends x s ok err) : Ends (attempt x) s (Either ok err) err' := by
  intro r s' hr
  obtain ⟨⟨r₁, s₁⟩, hx, hrest⟩ := Option.map_eq_some_iff.mp hr
  obtain ⟨rfl, rfl⟩ := Prod.mk.inj hrest
  exact h _ _ hx

theorem returns_pure {a : α} (h : ok a s) : Returns (pure a : Prog σ ε α) s ok := ⟨a, s, rfl, h⟩

theorem Returns.imp (h : Returns x s ok) (hok : ∀ a s', ok a s' → ok' a s') : Returns x s ok' := by
  obtain ⟨a, s', hx, ha⟩ := h
  exact ⟨a, s', hx, hok a s' ha⟩

theorem Returns.bind {ok' : β → σ → Prop} (h : Returns x s ok)
    (hf : ∀ a s', ok a s' → Returns (f a) s' ok') : Returns (x >>= f) s ok' := by
  obtain ⟨a, s₁, hx, ha⟩ := h
  obtain ⟨b, s₂, hrest, hb⟩ := hf a s₁ ha
  exact ⟨b, s₂, (bind_outcome hx).trans hrest, hb⟩

theorem returns_bind {ok' : β → σ → Prop} {a : α} (hx : x.outcome s = some (.ok a, s'))
    (hf : Returns (f a) s' ok') : Returns (x >>= f) s ok' := by
  obtain ⟨b, s₂, hrest, hb⟩ := hf
  exact ⟨b, s₂, (bind_outcome hx).trans hrest, hb⟩

/-- What holds of every end of a program that returns. -/
theorem Returns.and (h : Returns x s ok) (hends : Ends x s ok' err) :
    Returns x s fun a s' => ok a s' ∧ ok' a s' := by
  obtain ⟨a, s', hx, ha⟩ := h
  exact ⟨a, s', hx, ha, hends _ _ hx⟩

theorem Returns.attempt (h : Returns x s ok) :
    Returns (attempt x) s fun r s' => ∃ a, r = .ok a ∧ ok a s' := by
  obtain ⟨a, s', hx, ha⟩ := h
  refine ⟨.ok a, s', ?_, a, rfl, ha⟩
  change (x.outcome s).map _ = _
  rw [hx]
  rfl

end Prog

end Memoria.Lib

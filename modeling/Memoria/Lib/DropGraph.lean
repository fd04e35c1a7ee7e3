import Mathlib.Data.Finset.Card
import Mathlib.Data.List.Nodup
import Mathlib.Logic.Relation

/-!
# Deleting what can be reached

A recursive deletion in a graph of entries: first what an entry refers to, then the entry. The graph
only loses entries on the way, and an entry that is gone already is passed over. The deletion knows
nothing of the entries it is about to delete, so it ends exactly if it can reach no cycle.
-/

namespace Memoria.Lib

variable {S N : Type}

/-- `refs` are the targets of an entry that is there. A target that is not an entry at all, `none`,
is a failure. -/
def dropGraph (refs : S → N → Option (List (Option N))) (erase : S → N → Option S) :
    Nat → S → Option N → Option (S × Bool)
  | 0, _, _ => none
  | _ + 1, _, none => none
  | fuel + 1, s, some n =>
    match refs s n with
    | none => some (s, false)
    | some targets => do
      let s ← targets.foldlM (fun s target => (dropGraph refs erase fuel s target).map Prod.fst) s
      let s ← erase s n
      some (s, true)

section Reach

variable (refs : S → N → Option (List (Option N)))

def Refers (s : S) (a b : Option N) : Prop :=
  ∃ n targets, a = some n ∧ refs s n = some targets ∧ b ∈ targets

def Reach (s : S) : Option N → Option N → Prop :=
  Relation.ReflTransGen (Refers refs s)

def Safe (s : S) (a : Option N) : Prop :=
  ¬ Reach refs s a none ∧
    ∀ b, Reach refs s a b → ¬ Relation.TransGen (Refers refs s) b b

structure Erasable (erase : S → N → Option S) (I : S → Prop) [DecidableEq N] : Prop where
  erase : ∀ {s n targets}, I s → refs s n = some targets → ∃ s', erase s n = some s' ∧ I s' ∧
    ∀ m, refs s' m = if m = n then none else refs s m

end Reach

variable {refs : S → N → Option (List (Option N))} {erase : S → N → Option S} {I : S → Prop}

section Split

variable {s s' : S} {a b c : Option N}

def Loses (refs : S → N → Option (List (Option N))) (s s' : S) (P : N → Prop) : Prop :=
  ∀ m, (P m ∧ refs s' m = none) ∨ (¬ P m ∧ refs s' m = refs s m)

theorem Loses.refers {P : N → Prop} (h : Loses refs s s' P) (hr : Refers refs s' a b) :
    Refers refs s a b := by
  obtain ⟨n, targets, rfl, hn, hb⟩ := hr
  obtain ⟨-, hnone⟩ | ⟨-, hsame⟩ := h n
  · rw [hnone] at hn
    cases hn
  · exact ⟨n, targets, rfl, hsame ▸ hn, hb⟩

theorem Loses.reach {P : N → Prop} (h : Loses refs s s' P) (hr : Reach refs s' a b) :
    Reach refs s a b :=
  Relation.ReflTransGen.mono (fun _ _ => h.refers) _ _ hr

theorem Loses.transGen {P : N → Prop} (h : Loses refs s s' P)
    (hr : Relation.TransGen (Refers refs s') a b) : Relation.TransGen (Refers refs s) a b :=
  Relation.TransGen.mono (fun _ _ => h.refers) _ _ hr

theorem Loses.trans {s₁ : S} {P Q : N → Prop} (h : Loses refs s s₁ P) (h' : Loses refs s₁ s' Q) :
    Loses refs s s' fun n => P n ∨ Q n := by
  intro m
  obtain ⟨hq, hnone⟩ | ⟨hq, hsame⟩ := h' m
  · exact Or.inl ⟨Or.inr hq, hnone⟩
  · obtain ⟨hp, hnone⟩ | ⟨hp, hsame'⟩ := h m
    · exact Or.inl ⟨Or.inl hp, hsame.trans hnone⟩
    · exact Or.inr ⟨not_or.mpr ⟨hp, hq⟩, hsame.trans hsame'⟩

theorem Loses.safe {P : N → Prop} (h : Loses refs s s' P) (hsafe : Safe refs s a) :
    Safe refs s' a :=
  ⟨fun hnone => hsafe.1 (h.reach hnone),
    fun b hb hcycle => hsafe.2 b (h.reach hb) (h.transGen hcycle)⟩

/-- An edge is still there, or it starts at an entry that is lost. -/
theorem Loses.split {P : N → Prop} (h : Loses refs s s' P) (hr : Refers refs s a b) :
    Refers refs s' a b ∨ ∃ n, a = some n ∧ P n := by
  obtain ⟨n, targets, rfl, hn, hb⟩ := hr
  obtain ⟨hp, -⟩ | ⟨-, hsame⟩ := h n
  · exact Or.inr ⟨n, rfl, hp⟩
  · exact Or.inl ⟨n, targets, rfl, hsame.trans hn, hb⟩

/-- A path is still there, or it ends where one of the starts of what is lost leads to. -/
theorem Loses.reach_split {T : Option N → Prop}
    (h : Loses refs s s' fun n => ∃ t, T t ∧ Reach refs s t (some n)) (hr : Reach refs s a b) :
    Reach refs s' a b ∨ ∃ t, T t ∧ Reach refs s t b := by
  induction hr with
  | refl => exact Or.inl .refl
  | tail _ hedge ih =>
      obtain hpath | ⟨t, ht, hpath⟩ := ih
      · obtain hsame | ⟨n, rfl, t, ht, hlost⟩ := h.split hedge
        · exact Or.inl (hpath.tail hsame)
        · exact Or.inr ⟨t, ht, hlost.tail hedge⟩
      · exact Or.inr ⟨t, ht, hpath.tail hedge⟩

theorem Loses.transGen_split {T : Option N → Prop}
    (h : Loses refs s s' fun n => ∃ t, T t ∧ Reach refs s t (some n))
    (hr : Relation.TransGen (Refers refs s) a b) :
    Relation.TransGen (Refers refs s') a b ∨ ∃ t, T t ∧ Reach refs s t b := by
  induction hr with
  | single hedge =>
      obtain hsame | ⟨n, rfl, t, ht, hlost⟩ := h.split hedge
      · exact Or.inl (.single hsame)
      · exact Or.inr ⟨t, ht, hlost.tail hedge⟩
  | tail _ hedge ih =>
      obtain hpath | ⟨t, ht, hpath⟩ := ih
      · obtain hsame | ⟨n, rfl, t, ht, hlost⟩ := h.split hedge
        · exact Or.inl (hpath.tail hsame)
        · exact Or.inr ⟨t, ht, hlost.tail hedge⟩
      · exact Or.inr ⟨t, ht, hpath.tail hedge⟩

/-- What is safe in both parts of a graph is safe in it. -/
theorem Loses.safe_of_parts {T : Option N → Prop}
    (h : Loses refs s s' fun n => ∃ t, T t ∧ Reach refs s t (some n))
    (hlost : ∀ t, T t → Safe refs s t) (hsafe : Safe refs s' a) : Safe refs s a := by
  constructor
  · intro hnone
    obtain hpath | ⟨t, ht, hpath⟩ := h.reach_split hnone
    · exact hsafe.1 hpath
    · exact (hlost t ht).1 hpath
  · intro b hb hcycle
    obtain hpath | ⟨t, ht, hpath⟩ := h.reach_split hb
    · obtain hcycle' | ⟨t, ht, hpath'⟩ := h.transGen_split hcycle
      · exact hsafe.2 b hpath hcycle'
      · exact (hlost t ht).2 b hpath' hcycle
    · exact (hlost t ht).2 b hpath hcycle

end Split

def Dropped (refs : S → N → Option (List (Option N))) (erase : S → N → Option S)
    (T : Option N → Prop) (s s' : S) : Prop :=
  (∃ names : List N, names.Nodup ∧ names.foldlM erase s = some s' ∧
    ∀ n, n ∈ names ↔ (∃ t, T t ∧ Reach refs s t (some n)) ∧ (refs s n).isSome) ∧
  ∀ t, T t → Safe refs s t

theorem Dropped.nil (s : S) : Dropped refs erase (fun _ => False) s s :=
  ⟨⟨[], List.nodup_nil, rfl, by simp⟩, fun _ h => h.elim⟩

/-- There is nothing to erase for an entry that is not there. -/
theorem Dropped.absent {s : S} {n : N} (hn : refs s n = none) :
    Dropped refs erase (· = some n) s s := by
  have hedge : ∀ {b}, ¬ Refers refs s (some n) b := by
    rintro b ⟨_, _, heq, hn', -⟩
    obtain rfl := Option.some.inj heq
    rw [hn] at hn'
    cases hn'
  have hself : ∀ {b}, Reach refs s (some n) b → b = some n := by
    intro b hpath
    obtain heq | ⟨t, hfirst, -⟩ := hpath.cases_head
    · exact heq.symm
    · exact absurd hfirst hedge
  refine ⟨⟨[], List.nodup_nil, rfl, ?_⟩, ?_⟩
  · intro m
    refine iff_of_false List.not_mem_nil ?_
    rintro ⟨⟨_, rfl, hpath⟩, hthere⟩
    obtain rfl := Option.some.inj (hself hpath)
    rw [hn] at hthere
    cases hthere
  · rintro _ rfl
    refine ⟨fun hnone => Option.some_ne_none n (hself hnone).symm, ?_⟩
    intro b hb hcycle
    obtain rfl := hself hb
    obtain ⟨c, hfirst, -⟩ := Relation.TransGen.head'_iff.mp hcycle
    exact hedge hfirst

/-- An entry follows its targets. -/
theorem Dropped.entry {s s₁ s' : S} {n : N} {targets : List (Option N)}
    (hn : refs s n = some targets) (h : Dropped refs erase (· ∈ targets) s s₁)
    (hlast : erase s₁ n = some s') : Dropped refs erase (· = some n) s s' := by
  obtain ⟨⟨names, hnodup, hfold, hnames⟩, hsafe⟩ := h
  have hedge : ∀ t ∈ targets, Refers refs s (some n) t := fun t ht => ⟨n, targets, rfl, hn, ht⟩
  -- an entry that one of its targets reaches is on a cycle
  have hback : ∀ t ∈ targets, ¬ Reach refs s t (some n) := fun t ht hpath =>
    (hsafe t ht).2 t .refl (Relation.TransGen.tail' hpath (hedge t ht))
  have hfirst : ∀ {b}, Reach refs s (some n) b → b = some n ∨ ∃ t ∈ targets, Reach refs s t b := by
    intro b hpath
    obtain heq | ⟨t, hedge', hrest⟩ := hpath.cases_head
    · exact Or.inl heq.symm
    · obtain ⟨_, _, rfl', hn', ht⟩ := hedge'
      obtain rfl := Option.some.inj rfl'
      obtain rfl := Option.some.inj (hn'.symm.trans hn)
      exact Or.inr ⟨t, ht, hrest⟩
  refine ⟨⟨names ++ [n], ?_, ?_, ?_⟩, ?_⟩
  · refine List.nodup_append.mpr ⟨hnodup, List.nodup_singleton n, ?_⟩
    intro m hm m' hm' heq
    obtain rfl := List.mem_singleton.mp hm'
    subst heq
    obtain ⟨⟨t, ht, hpath⟩, -⟩ := (hnames m).mp hm
    exact hback t ht hpath
  · simp [List.foldlM_append, hfold, hlast]
  · intro m
    rw [List.mem_append, hnames, List.mem_singleton]
    constructor
    · rintro (⟨⟨t, ht, hpath⟩, hthere⟩ | rfl)
      · exact ⟨⟨_, rfl, .head (hedge t ht) hpath⟩, hthere⟩
      · exact ⟨⟨_, rfl, .refl⟩, by simp [hn]⟩
    · rintro ⟨⟨_, rfl, hpath⟩, hthere⟩
      obtain heq | hrest := hfirst hpath
      · exact Or.inr (Option.some.inj heq)
      · exact Or.inl ⟨hrest, hthere⟩
  · rintro t rfl
    constructor
    · intro hnone
      obtain heq | ⟨t, ht, hpath⟩ := hfirst hnone
      · cases heq
      · exact (hsafe t ht).1 hpath
    · intro b hb hcycle
      obtain rfl | ⟨t, ht, hpath⟩ := hfirst hb
      · obtain ⟨c, hedge', hrest⟩ := Relation.TransGen.head'_iff.mp hcycle
        obtain ⟨_, _, rfl', hn', hc⟩ := hedge'
        obtain rfl := Option.some.inj rfl'
        obtain rfl := Option.some.inj (hn'.symm.trans hn)
        exact hback c hc hrest
      · exact (hsafe t ht).2 b hpath hcycle

section Drop

variable [DecidableEq N] (herase : Erasable refs erase I)

include herase

/-- Erasing some entries that are there, one after the other. -/
theorem Erasable.all {names : List N} (hnodup : names.Nodup) {s : S} (hs : I s)
    (hthere : ∀ n ∈ names, (refs s n).isSome) :
    ∃ s', names.foldlM erase s = some s' ∧ I s' ∧ Loses refs s s' (· ∈ names) := by
  induction names generalizing s with
  | nil => exact ⟨s, rfl, hs, fun m => Or.inr ⟨by simp, rfl⟩⟩
  | cons n names ih =>
      obtain ⟨hn, hnodup⟩ := List.nodup_cons.mp hnodup
      obtain ⟨targets, htargets⟩ := Option.isSome_iff_exists.mp (hthere n List.mem_cons_self)
      obtain ⟨s₁, hs₁, hI₁, hrefs₁⟩ := herase.erase hs htargets
      obtain ⟨s', hs', hI', hloses⟩ := ih hnodup hI₁ (by
        intro m hm
        have hne : m ≠ n := fun heq => hn (heq ▸ hm)
        rw [hrefs₁, if_neg hne]
        exact hthere m (List.mem_cons_of_mem _ hm))
      refine ⟨s', by simp [List.foldlM_cons, hs₁, hs'], hI', ?_⟩
      intro m
      by_cases heq : m = n
      · subst heq
        refine Or.inl ⟨List.mem_cons_self, ?_⟩
        obtain ⟨hmem, -⟩ | ⟨-, hsame⟩ := hloses m
        · exact absurd hmem hn
        · rw [hsame, hrefs₁, if_pos rfl]
      · obtain ⟨hmem, hnone⟩ | ⟨hmem, hsame⟩ := hloses m
        · exact Or.inl ⟨List.mem_cons_of_mem _ hmem, hnone⟩
        · refine Or.inr ⟨by simp [heq, hmem], ?_⟩
          rw [hsame, hrefs₁, if_neg heq]

theorem Dropped.loses {T : Option N → Prop} {s s' : S} (hs : I s)
    (h : Dropped refs erase T s s') :
    I s' ∧ Loses refs s s' fun n => ∃ t, T t ∧ Reach refs s t (some n) := by
  obtain ⟨⟨names, hnodup, hfold, hnames⟩, -⟩ := h
  obtain ⟨s₁, hs₁, hI, hloses⟩ := herase.all hnodup hs fun n hn => ((hnames n).mp hn).2
  obtain rfl := Option.some.inj (hfold.symm.trans hs₁)
  refine ⟨hI, fun m => ?_⟩
  obtain ⟨hmem, hnone⟩ | ⟨hmem, hsame⟩ := hloses m
  · exact Or.inl ⟨((hnames m).mp hmem).1, hnone⟩
  · by_cases hreach : ∃ t, T t ∧ Reach refs s t (some m)
    · refine Or.inl ⟨hreach, ?_⟩
      cases hrefs : refs s m with
      | none => rw [hsame, hrefs]
      | some targets => exact absurd ((hnames m).mpr ⟨hreach, by simp [hrefs]⟩) hmem
    · exact Or.inr ⟨hreach, hsame⟩

theorem Dropped.trans {T T' : Option N → Prop} {s s₁ s' : S} (hs : I s)
    (h : Dropped refs erase T s s₁) (h' : Dropped refs erase T' s₁ s') :
    Dropped refs erase (fun t => T t ∨ T' t) s s' := by
  obtain ⟨-, hloses⟩ := h.loses herase hs
  obtain ⟨⟨names, hnodup, hfold, hnames⟩, hsafe⟩ := h
  obtain ⟨⟨names', hnodup', hfold', hnames'⟩, hsafe'⟩ := h'
  refine ⟨⟨names ++ names', ?_, ?_, ?_⟩, ?_⟩
  · refine List.nodup_append.mpr ⟨hnodup, hnodup', ?_⟩
    rintro n hn _ hn' rfl
    obtain ⟨-, hnone⟩ | ⟨hnot, -⟩ := hloses n
    · have hthere := ((hnames' n).mp hn').2
      rw [hnone] at hthere
      cases hthere
    · exact hnot ((hnames n).mp hn).1
  · simp [List.foldlM_append, hfold, hfold']
  · intro n
    rw [List.mem_append, hnames, hnames']
    constructor
    · rintro (⟨⟨t, ht, hpath⟩, hthere⟩ | ⟨⟨t, ht, hpath⟩, hthere⟩)
      · exact ⟨⟨t, Or.inl ht, hpath⟩, hthere⟩
      · refine ⟨⟨t, Or.inr ht, hloses.reach hpath⟩, ?_⟩
        obtain ⟨-, hnone⟩ | ⟨-, hsame⟩ := hloses n
        · rw [hnone] at hthere
          cases hthere
        · rwa [hsame] at hthere
    · rintro ⟨⟨t, ht, hpath⟩, hthere⟩
      by_cases hreach : ∃ t, T t ∧ Reach refs s t (some n)
      · exact Or.inl ⟨hreach, hthere⟩
      · right
        obtain ⟨hlost, -⟩ | ⟨-, hsame⟩ := hloses n
        · exact absurd hlost hreach
        · refine ⟨⟨t, ?_⟩, by rwa [hsame]⟩
          obtain hin | hin := ht
          · exact absurd ⟨t, hin, hpath⟩ hreach
          · obtain hpath' | hlost := hloses.reach_split hpath
            · exact ⟨hin, hpath'⟩
            · exact absurd hlost hreach
  · rintro t (ht | ht)
    · exact hsafe t ht
    · exact hloses.safe_of_parts hsafe (hsafe' t ht)

/-- The targets of an entry, one after the other. -/
theorem dropTargets_spec {drop : S → Option N → Option S}
    (hdrop : ∀ {s s' target}, I s → drop s target = some s' → Dropped refs erase (· = target) s s')
    {targets : List (Option N)} {s s' : S} (hs : I s)
    (h : targets.foldlM drop s = some s') : Dropped refs erase (· ∈ targets) s s' := by
  induction targets generalizing s with
  | nil =>
      obtain rfl := Option.some.inj h
      simpa using Dropped.nil s
  | cons target targets ih =>
      obtain ⟨s₁, hs₁, hrest⟩ := Option.bind_eq_some_iff.mp h
      have hfirst := hdrop hs hs₁
      have hall := hfirst.trans herase hs (ih (hfirst.loses herase hs).1 hrest)
      simpa using hall

/-- **A deletion that ends.** -/
theorem dropGraph_spec {fuel : Nat} {s s' : S} {a : Option N} {b : Bool} (hs : I s)
    (h : dropGraph refs erase fuel s a = some (s', b)) :
    Dropped refs erase (· = a) s s' ∧ (b = true ↔ ∃ n, a = some n ∧ (refs s n).isSome) := by
  induction fuel generalizing s s' a b with
  | zero => cases h
  | succ fuel ih =>
      cases a with
      | none => cases h
      | some n =>
          rw [dropGraph] at h
          cases hn : refs s n with
          | none =>
              rw [hn] at h
              cases h
              exact ⟨Dropped.absent hn, by simp [hn]⟩
          | some targets =>
              rw [hn] at h
              obtain ⟨s₁, hs₁, hrest⟩ := Option.bind_eq_some_iff.mp h
              obtain ⟨s₂, hs₂, hlast⟩ := Option.bind_eq_some_iff.mp hrest
              cases hlast
              have htargets := dropTargets_spec herase (fun hs hdrop => by
                obtain ⟨⟨_, b⟩, hresult, rfl⟩ := Option.map_eq_some_iff.mp hdrop
                exact (ih hs hresult).1) hs hs₁
              exact ⟨htargets.entry hn hs₂, by simp [hn]⟩

omit [DecidableEq N] herase in
/-- Targets can be dropped one after the other if each can be in every graph that has lost entries
on the way. -/
theorem dropTargets_total {drop : S → Option N → Option S} {s : S} {targets : List (Option N)}
    (hdrop : ∀ t ∈ targets, ∀ {s₁ : S} {P : N → Prop}, I s₁ → Loses refs s s₁ P →
      ∃ s₂, drop s₁ t = some s₂ ∧ I s₂ ∧ ∃ Q, Loses refs s₁ s₂ Q)
    {s₁ : S} {P : N → Prop} (hs₁ : I s₁) (hloses : Loses refs s s₁ P) :
    ∃ s', targets.foldlM drop s₁ = some s' := by
  induction targets generalizing s₁ P with
  | nil => exact ⟨s₁, rfl⟩
  | cons t targets ih =>
      obtain ⟨s₂, hs₂, hI₂, Q, hloses₂⟩ := hdrop t List.mem_cons_self hs₁ hloses
      obtain ⟨s', hs'⟩ := ih (fun t ht => hdrop t (List.mem_cons_of_mem _ ht)) hI₂
        (hloses.trans hloses₂)
      exact ⟨s', by simp [List.foldlM_cons, hs₂, hs']⟩

/-- **A deletion ends.** The fuel is the number of the entries that can be reached. -/
theorem dropGraph_total {fuel : Nat} (F : Finset N) {s : S} {a : Option N} (hs : I s)
    (hsafe : Safe refs s a) (hF : ∀ n, Reach refs s a (some n) → (refs s n).isSome → n ∈ F)
    (hfuel : F.card < fuel) : ∃ result, dropGraph refs erase fuel s a = some result := by
  induction fuel generalizing s a F with
  | zero => omega
  | succ fuel ih =>
      cases a with
      | none => exact absurd .refl hsafe.1
      | some n =>
          rw [dropGraph]
          cases hn : refs s n with
          | none => exact ⟨_, rfl⟩
          | some targets =>
              have hmem : n ∈ F := hF n .refl (by simp [hn])
              have hless : (F.erase n).card < fuel := by
                rw [Finset.card_erase_of_mem hmem]
                have := Finset.card_pos.mpr ⟨n, hmem⟩
                omega
              have hedge : ∀ t ∈ targets, Refers refs s (some n) t :=
                fun t ht => ⟨n, targets, rfl, hn, ht⟩
              -- an entry that one of its targets reaches is on a cycle
              have hback : ∀ t ∈ targets, ¬ Reach refs s t (some n) := fun t ht hpath =>
                hsafe.2 t (.single (hedge t ht)) (Relation.TransGen.tail' hpath (hedge t ht))
              have hdrop : ∀ t ∈ targets, ∀ {s₁ : S} {P : N → Prop}, I s₁ → Loses refs s s₁ P →
                  ∃ s₂, (dropGraph refs erase fuel s₁ t).map Prod.fst = some s₂ ∧ I s₂ ∧
                    ∃ Q, Loses refs s₁ s₂ Q := by
                intro t ht s₁ P hs₁ hloses
                have hsafe₁ : Safe refs s₁ t := hloses.safe
                  ⟨fun hnone => hsafe.1 (.head (hedge t ht) hnone),
                    fun b hb => hsafe.2 b (.head (hedge t ht) hb)⟩
                have hF₁ : ∀ m, Reach refs s₁ t (some m) → (refs s₁ m).isSome → m ∈ F.erase n := by
                  intro m hm hthere
                  have hpath := hloses.reach hm
                  refine Finset.mem_erase.mpr ⟨?_, hF m (.head (hedge t ht) hpath) ?_⟩
                  · rintro rfl
                    exact hback t ht hpath
                  · obtain ⟨-, hnone⟩ | ⟨-, hsame⟩ := hloses m
                    · rw [hnone] at hthere
                      cases hthere
                    · rwa [← hsame]
                obtain ⟨⟨s₂, b⟩, hresult⟩ := ih (F.erase n) hs₁ hsafe₁ hF₁ hless
                obtain ⟨hI₂, hloses₂⟩ := (dropGraph_spec herase hs₁ hresult).1.loses herase hs₁
                exact ⟨s₂, by rw [hresult]; rfl, hI₂, _, hloses₂⟩
              obtain ⟨s₁, hs₁⟩ := dropTargets_total hdrop hs
                (fun m => Or.inr ⟨not_false, rfl⟩ : Loses refs s s fun _ => False)
              have htargets := dropTargets_spec herase (fun hs hdrop => by
                obtain ⟨⟨_, b⟩, hresult, rfl⟩ := Option.map_eq_some_iff.mp hdrop
                exact (dropGraph_spec herase hs hresult).1) hs hs₁
              obtain ⟨hI₁, hloses₁⟩ := htargets.loses herase hs
              have hthere : refs s₁ n = some targets := by
                obtain ⟨⟨t, ht, hpath⟩, -⟩ | ⟨-, hsame⟩ := hloses₁ n
                · exact absurd hpath (hback t ht)
                · exact hsame.trans hn
              obtain ⟨s₂, hs₂, -⟩ := herase.erase hI₁ hthere
              exact ⟨(s₂, true), by simp [hs₁, hs₂]⟩

end Drop

/-- More fuel does not change the result. -/
theorem dropGraph_mono {fuel : Nat} {s : S} {a : Option N} {result : S × Bool}
    (h : dropGraph refs erase fuel s a = some result) :
    dropGraph refs erase (fuel + 1) s a = some result := by
  induction fuel generalizing s a result with
  | zero => cases h
  | succ fuel ih =>
      cases a with
      | none => cases h
      | some n =>
          have hfold : ∀ (targets : List (Option N)) {s s' : S},
              targets.foldlM (fun s t => (dropGraph refs erase fuel s t).map Prod.fst) s = some s' →
              targets.foldlM (fun s t => (dropGraph refs erase (fuel + 1) s t).map Prod.fst) s =
                some s' := by
            intro targets
            induction targets with
            | nil => exact fun h => h
            | cons t targets ihts =>
                intro s s' h
                obtain ⟨s₁, hs₁, hrest⟩ := Option.bind_eq_some_iff.mp h
                obtain ⟨r, hr, rfl⟩ := Option.map_eq_some_iff.mp hs₁
                rw [List.foldlM_cons, ih hr]
                exact ihts hrest
          rw [dropGraph] at h ⊢
          cases hn : refs s n with
          | none => rwa [hn] at h
          | some targets =>
              rw [hn] at h
              obtain ⟨s₁, hs₁, hrest⟩ := Option.bind_eq_some_iff.mp h
              simp only
              rw [hfold targets hs₁]
              exact hrest

theorem dropGraph_le {fuel more : Nat} (hle : fuel ≤ more) {s : S} {a : Option N}
    {result : S × Bool} (h : dropGraph refs erase fuel s a = some result) :
    dropGraph refs erase more s a = some result := by
  induction hle with
  | refl => exact h
  | step _ ih => exact dropGraph_mono ih

end Memoria.Lib

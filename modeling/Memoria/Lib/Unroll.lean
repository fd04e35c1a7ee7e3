import Mathlib.Data.List.Forall2
import Mathlib.Logic.Relation

/-!
# Unrolling a graph into trees

A graph is given by what is seen at a node: a label and the nodes that hang from it, or nothing
where the node cannot be looked at. A node stands for the tree that is seen from it. One node copies
another, of another graph, where it stands for the same tree.
-/

namespace Memoria.Lib

variable {L α β : Type}

inductive Tree (L : Type) where
  | node (label : L) (children : List (Tree L))

def unroll (look : α → Option (L × List α)) : ℕ → α → Option (Tree L)
  | 0, _ => none
  | n + 1, a => do
      let seen ← look a
      let trees ← seen.2.mapM (unroll look n)
      return .node seen.1 trees

def StandsFor (look : α → Option (L × List α)) (a : α) (tree : Tree L) : Prop :=
  ∃ n, unroll look n a = some tree

def Hangs (look : α → Option (L × List α)) (a c : α) : Prop :=
  ∃ seen, look a = some seen ∧ c ∈ seen.2

def Everywhere (look : α → Option (L × List α)) (P : α → Prop) (a : α) : Prop :=
  ∀ c, Relation.ReflTransGen (Hangs look) a c → P c

theorem mapM_eq_some_iff {f : α → Option β} {l : List α} {r : List β} :
    l.mapM f = some r ↔ List.Forall₂ (fun a b => f a = some b) l r := by
  induction l generalizing r with
  | nil => simp [eq_comm]
  | cons a l ih =>
      simp only [List.mapM_cons, Option.bind_eq_bind, Option.bind_eq_some_iff, Option.pure_def,
        Option.some.injEq, List.forall₂_cons_left_iff]
      constructor
      · rintro ⟨b, hb, bs, hbs, rfl⟩
        exact ⟨b, bs, hb, ih.mp hbs, rfl⟩
      · rintro ⟨b, bs, hb, hbs, rfl⟩
        exact ⟨b, hb, bs, ih.mpr hbs, rfl⟩

theorem mapM_congr {f g : α → Option β} {l : List α} (h : ∀ a ∈ l, f a = g a) :
    l.mapM f = l.mapM g := by
  induction l with
  | nil => rfl
  | cons a l ih =>
      rw [List.mapM_cons, List.mapM_cons, h a List.mem_cons_self,
        ih fun b hb => h b (List.mem_cons_of_mem a hb)]

theorem exists_of_forall₂ {R : α → β → Prop} {l : List α} {r : List β} {a : α}
    (h : List.Forall₂ R l r) (ha : a ∈ l) : ∃ b ∈ r, R a b := by
  induction h with
  | nil => cases ha
  | cons hab _ ih =>
      obtain rfl | ha := List.mem_cons.mp ha
      · exact ⟨_, List.mem_cons_self, hab⟩
      · obtain ⟨b, hb, hab⟩ := ih ha
        exact ⟨b, List.mem_cons_of_mem _ hb, hab⟩

theorem exists_of_forall₂_right {R : α → β → Prop} {l : List α} {r : List β} {b : β}
    (h : List.Forall₂ R l r) (hb : b ∈ r) : ∃ a ∈ l, R a b := by
  obtain ⟨a, ha, hab⟩ := exists_of_forall₂ (List.Forall₂.flip h) hb
  exact ⟨a, ha, hab⟩

theorem forall₂_imp_of_mem {R S : α → β → Prop} {l : List α} {r : List β}
    (h : List.Forall₂ R l r) (himp : ∀ a ∈ l, ∀ b, R a b → S a b) : List.Forall₂ S l r := by
  induction h with
  | nil => exact .nil
  | cons hab _ ih =>
      exact .cons (himp _ List.mem_cons_self _ hab)
        (ih fun a ha => himp a (List.mem_cons_of_mem _ ha))

section Unroll

variable {look look' : α → Option (L × List α)} {n m : ℕ} {a : α} {tree : Tree L}

theorem unroll_succ_eq_some : unroll look (n + 1) a = some tree ↔
    ∃ label children trees, look a = some (label, children) ∧
      List.Forall₂ (fun c t => unroll look n c = some t) children trees ∧
      tree = .node label trees := by
  simp only [unroll, Option.bind_eq_bind, Option.bind_eq_some_iff, mapM_eq_some_iff,
    Option.pure_def, Option.some.injEq, Prod.exists]
  constructor
  · rintro ⟨label, children, hlook, trees, htrees, rfl⟩
    exact ⟨label, children, trees, hlook, htrees, rfl⟩
  · rintro ⟨label, children, trees, hlook, htrees, rfl⟩
    exact ⟨label, children, hlook, trees, htrees, rfl⟩

/-- A deeper bound sees what a lower one sees, and a graph that shows more shows it too. -/
theorem unroll_extend (hlook : ∀ a seen, look a = some seen → look' a = some seen)
    (h : unroll look n a = some tree) (hn : n ≤ m) : unroll look' m a = some tree := by
  induction n generalizing m a tree with
  | zero => cases h
  | succ n ih =>
      obtain ⟨m, rfl⟩ : ∃ k, m = k + 1 := ⟨m - 1, by omega⟩
      rw [unroll_succ_eq_some] at h ⊢
      obtain ⟨label, children, trees, hseen, htrees, rfl⟩ := h
      refine ⟨label, children, trees, hlook a _ hseen, ?_, rfl⟩
      exact htrees.imp fun c t ht => ih ht (by omega)

theorem unroll_mono (h : unroll look n a = some tree) (hn : n ≤ m) :
    unroll look m a = some tree :=
  unroll_extend (fun _ _ h => h) h hn

/-- A node stands for one tree. -/
theorem StandsFor.unique {tree' : Tree L} (h : StandsFor look a tree) (h' : StandsFor look a tree') :
    tree = tree' := by
  obtain ⟨n, hn⟩ := h
  obtain ⟨m, hm⟩ := h'
  exact Option.some.inj
    ((unroll_mono hn (Nat.le_add_right n m)).symm.trans (unroll_mono hm (Nat.le_add_left m n)))

/-- Two graphs that show the same at the nodes of a part closed downwards unroll them alike. -/
theorem unroll_congr {P : α → Prop} (hlook : ∀ a, P a → look' a = look a)
    (hclosed : ∀ a c, P a → Hangs look a c → P c) (ha : P a) (n : ℕ) :
    unroll look' n a = unroll look n a := by
  induction n generalizing a with
  | zero => rfl
  | succ n ih =>
      simp only [unroll, hlook a ha]
      cases hseen : look a with
      | none => rfl
      | some seen =>
          have hchildren : seen.2.mapM (unroll look' n) = seen.2.mapM (unroll look n) :=
            mapM_congr fun c hc => ih (hclosed a c ha ⟨seen, hseen, hc⟩)
          simp only [Option.bind_eq_bind, Option.bind_some, hchildren]

theorem exists_unroll_of_hangs {c : α} (h : unroll look n a = some tree) (hc : Hangs look a c) :
    ∃ t, unroll look n c = some t := by
  cases n with
  | zero => cases h
  | succ n =>
      obtain ⟨label, children, trees, hseen, htrees, rfl⟩ := unroll_succ_eq_some.mp h
      obtain ⟨seen, hseen', hc⟩ := hc
      obtain rfl : seen = (label, children) := Option.some.inj (hseen'.symm.trans hseen)
      obtain ⟨t, -, ht⟩ := exists_of_forall₂ htrees hc
      exact ⟨t, unroll_mono ht (Nat.le_succ n)⟩

theorem exists_unroll_of_reached {c : α} (h : unroll look n a = some tree)
    (hc : Relation.ReflTransGen (Hangs look) a c) : ∃ t, unroll look n c = some t := by
  induction hc with
  | refl => exact ⟨tree, h⟩
  | tail _ hlast ih =>
      obtain ⟨t, ht⟩ := ih
      exact exists_unroll_of_hangs ht hlast

end Unroll

section Everywhere

variable {look : α → Option (L × List α)} {P : α → Prop} {a c : α}

theorem Everywhere.here (h : Everywhere look P a) : P a := h a .refl

theorem Everywhere.imp {Q : α → Prop} (himp : ∀ c, P c → Q c) (h : Everywhere look P a) :
    Everywhere look Q a :=
  fun c hc => himp c (h c hc)

theorem Everywhere.below (h : Everywhere look P a) (hc : Hangs look a c) : Everywhere look P c :=
  fun d hd => h d (.head hc hd)

theorem everywhere_of_below (h : P a) (hbelow : ∀ c, Hangs look a c → Everywhere look P c) :
    Everywhere look P a := by
  intro c hc
  obtain rfl | ⟨b, hb, hc⟩ := Relation.ReflTransGen.cases_head hc
  · exact h
  · exact hbelow b hb c hc

end Everywhere

section Copies

variable {look : α → Option (L × List α)} {look' : β → Option (L × List β)}

def Copies (look : α → Option (L × List α)) (look' : β → Option (L × List β)) (a : α) (b : β) :
    Prop :=
  ∀ n tree, unroll look n a = some tree → unroll look' n b = some tree

def Matches (look : α → Option (L × List α)) (look' : β → Option (L × List β)) (a : α) (b : β) :
    Prop :=
  ∃ tree, StandsFor look a tree ∧ StandsFor look' b tree

variable {a : α} {b : β} {label : L} {cs : List α} {cs' : List β}

theorem Copies.node (ha : look a = some (label, cs)) (hb : look' b = some (label, cs'))
    (hchildren : List.Forall₂ (Copies look look') cs cs') : Copies look look' a b := by
  intro n tree h
  cases n with
  | zero => cases h
  | succ n =>
      obtain ⟨label', children, trees, hseen, htrees, rfl⟩ := unroll_succ_eq_some.mp h
      obtain ⟨rfl, rfl⟩ : label' = label ∧ children = cs := by
        simpa using hseen.symm.trans ha
      refine unroll_succ_eq_some.mpr ⟨label', cs', trees, hb, ?_, rfl⟩
      clear h ha hb hseen
      induction hchildren generalizing trees with
      | nil =>
          cases htrees
          exact .nil
      | cons hc _ ih =>
          obtain ⟨t, ts, ht, hts, rfl⟩ := List.forall₂_cons_left_iff.mp htrees
          exact .cons (hc n t ht) (ih ts hts)

theorem Copies.of_look_none (ha : look a = none) : Copies look look' a b := by
  intro n tree h
  cases n with
  | zero => cases h
  | succ n =>
      obtain ⟨label, children, trees, hseen, -⟩ := unroll_succ_eq_some.mp h
      rw [ha] at hseen
      cases hseen

theorem Matches.look_isSome (h : Matches look look' a b) :
    (∃ seen, look a = some seen) ∧ ∃ seen, look' b = some seen := by
  obtain ⟨tree, ⟨n, hn⟩, ⟨m, hm⟩⟩ := h
  cases n with
  | zero => cases hn
  | succ n =>
      cases m with
      | zero => cases hm
      | succ m =>
          obtain ⟨_, _, _, ha, -⟩ := unroll_succ_eq_some.mp hn
          obtain ⟨_, _, _, hb, -⟩ := unroll_succ_eq_some.mp hm
          exact ⟨⟨_, ha⟩, ⟨_, hb⟩⟩

theorem Matches.children {label' : L} (h : Matches look look' a b)
    (ha : look a = some (label, cs)) (hb : look' b = some (label', cs')) :
    label = label' ∧ List.Forall₂ (Matches look look') cs cs' := by
  obtain ⟨tree, ⟨n, hn⟩, ⟨m, hm⟩⟩ := h
  cases n with
  | zero => cases hn
  | succ n =>
      cases m with
      | zero => cases hm
      | succ m =>
          obtain ⟨l, as, trees, hseen, htrees, rfl⟩ := unroll_succ_eq_some.mp hn
          obtain ⟨l', bs, trees', hseen', htrees', heq⟩ := unroll_succ_eq_some.mp hm
          obtain ⟨rfl, rfl⟩ : l = label ∧ as = cs := by simpa using hseen.symm.trans ha
          obtain ⟨rfl, rfl⟩ : l' = label' ∧ bs = cs' := by simpa using hseen'.symm.trans hb
          obtain ⟨rfl, rfl⟩ : l = l' ∧ trees = trees' := by simpa using heq
          refine ⟨rfl, ?_⟩
          clear hn hm ha hb hseen hseen' heq
          induction htrees generalizing bs with
          | nil =>
              cases htrees'
              exact .nil
          | cons ht _ ih =>
              obtain ⟨b, bs, hb, hbs, rfl⟩ := List.forall₂_cons_right_iff.mp htrees'
              exact .cons ⟨_, ⟨n, ht⟩, ⟨m, hb⟩⟩ (ih bs hbs)

/-- How deep a tree is does not depend on the graph. -/
theorem unroll_of_standsFor {n : ℕ} {tree : Tree L} (ha : unroll look n a = some tree)
    (hb : StandsFor look' b tree) : unroll look' n b = some tree := by
  obtain ⟨m, hb⟩ := hb
  induction n generalizing m a b tree with
  | zero => cases ha
  | succ n ih =>
      obtain ⟨label, children, trees, -, htrees, rfl⟩ := unroll_succ_eq_some.mp ha
      cases m with
      | zero => cases hb
      | succ m =>
          obtain ⟨label', children', trees', hseen, htrees', heq⟩ := unroll_succ_eq_some.mp hb
          obtain ⟨rfl, rfl⟩ : label = label' ∧ trees = trees' := by simpa using heq
          refine unroll_succ_eq_some.mpr ⟨label, children', trees, hseen, ?_, rfl⟩
          clear ha hb hseen heq
          induction htrees generalizing children' with
          | nil =>
              cases htrees'
              exact .nil
          | cons ht _ ih' =>
              obtain ⟨c, cs, hc, hcs, rfl⟩ := List.forall₂_cons_right_iff.mp htrees'
              exact .cons (ih ht m hc) (ih' cs hcs)

theorem Copies.standsFor {tree : Tree L} (h : Copies look look' a b) (ha : StandsFor look a tree) :
    StandsFor look' b tree := by
  obtain ⟨n, hn⟩ := ha
  exact ⟨n, h n tree hn⟩

end Copies

end Memoria.Lib

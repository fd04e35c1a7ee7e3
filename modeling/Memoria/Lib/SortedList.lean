import Mathlib.Algebra.Ring.Nat
import Mathlib.Logic.Function.Basic
import Mathlib.Order.Defs.LinearOrder
import Mathlib.Order.Lattice

/-!
# Finite maps as sorted lists of bindings
-/

namespace Memoria.Lib

variable {K V : Type}

def Sorted [LT K] (bs : List (K × V)) : Prop := bs.Pairwise fun a b => a.1 < b.1

def toMap [DecidableEq K] (bs : List (K × V)) : K → Option V := fun k => bs.lookup k

variable [LinearOrder K] {bs bs' : List (K × V)} {key : K}

theorem sorted_append : Sorted (bs ++ bs') ↔
    Sorted bs ∧ Sorted bs' ∧ ∀ a ∈ bs, ∀ b ∈ bs', a.1 < b.1 := List.pairwise_append

theorem Sorted.toMap_eq_some_iff (h : Sorted bs) {v : V} :
    toMap bs key = some v ↔ (key, v) ∈ bs := by
  unfold toMap
  induction bs with
  | nil => simp
  | cons b bs ih =>
      obtain ⟨hlt, hsorted⟩ := List.pairwise_cons.mp h
      obtain ⟨k, w⟩ := b
      rw [List.lookup_cons]
      by_cases heq : key = k
      · subst heq
        simp only [beq_self_eq_true, List.mem_cons, Prod.mk.injEq, true_and, Option.some.injEq]
        constructor
        · exact fun hw => Or.inl hw.symm
        · rintro (hw | hmem)
          · exact hw.symm
          · exact absurd (hlt _ hmem) (lt_irrefl _)
      · simp only [beq_eq_false_iff_ne.mpr heq, List.mem_cons, Prod.mk.injEq, heq, false_and,
          false_or]
        exact ih hsorted

theorem Sorted.toMap_eq_none_iff (h : Sorted bs) : toMap bs key = none ↔ ∀ b ∈ bs, b.1 ≠ key := by
  rw [Option.eq_none_iff_forall_ne_some]
  constructor
  · rintro hnone ⟨k, v⟩ hb rfl
    exact hnone v (h.toMap_eq_some_iff.mpr hb)
  · intro hne v hv
    exact hne _ (h.toMap_eq_some_iff.mp hv) rfl

/-- Two sorted lists with the same bindings for a key. -/
theorem Sorted.toMap_congr (h : Sorted bs) (h' : Sorted bs') {k : K}
    (hmem : ∀ v, (k, v) ∈ bs' ↔ (k, v) ∈ bs) : toMap bs' k = toMap bs k := by
  refine Option.ext fun v => ?_
  rw [h.toMap_eq_some_iff, h'.toMap_eq_some_iff]
  exact hmem v

theorem Sorted.toMap_assign (h : Sorted bs) (h' : Sorted bs') {v : V}
    (hmem : ∀ b, b ∈ bs' ↔ b = (key, v) ∨ b ∈ bs ∧ b.1 ≠ key) :
    toMap bs' = Function.update (toMap bs) key (some v) := by
  funext k
  by_cases heq : k = key
  · subst heq
    rw [Function.update_self, h'.toMap_eq_some_iff, hmem]
    exact Or.inl rfl
  · rw [Function.update_of_ne heq]
    refine h.toMap_congr h' fun w => ?_
    rw [hmem]
    simp [heq]

theorem Sorted.toMap_remove (h : Sorted bs) (h' : Sorted bs')
    (hmem : ∀ b, b ∈ bs' ↔ b ∈ bs ∧ b.1 ≠ key) :
    toMap bs' = Function.update (toMap bs) key none := by
  funext k
  by_cases heq : k = key
  · subst heq
    rw [Function.update_self, h'.toMap_eq_none_iff]
    exact fun b hb => ((hmem b).mp hb).2
  · rw [Function.update_of_ne heq]
    refine h.toMap_congr h' fun w => ?_
    rw [hmem]
    simp [heq]

/-- Only the part that can hold the key matters. -/
theorem Sorted.toMap_append (h : Sorted (bs ++ bs')) (hbs : ∀ b ∈ bs, b.1 < key) :
    toMap (bs ++ bs') key = toMap bs' key := by
  refine (sorted_append.mp h).2.1.toMap_congr h fun v => ?_
  rw [List.mem_append, or_iff_right]
  exact fun hmem => lt_irrefl _ (hbs _ hmem)

theorem Sorted.toMap_append' (h : Sorted (bs ++ bs')) (hbs : ∀ b ∈ bs', key < b.1) :
    toMap (bs ++ bs') key = toMap bs key := by
  refine (sorted_append.mp h).1.toMap_congr h fun v => ?_
  rw [List.mem_append, or_iff_left]
  exact fun hmem => lt_irrefl _ (hbs _ hmem)

section Around

variable {front back : List (K × V)} {old new : Option V}

def around (front : List (K × V)) (key : K) (old : Option V) (back : List (K × V)) :
    List (K × V) :=
  front ++ ((old.map fun v => (key, v)).toList ++ back)

omit [LinearOrder K] in
theorem mem_around {b : K × V} :
    b ∈ around front key old back ↔ b.1 = key ∧ old = some b.2 ∨ b ∈ front ∨ b ∈ back := by
  obtain ⟨k, v⟩ := b
  cases old with
  | none => simp [around]
  | some w =>
      simp only [around, Option.map_some, Option.toList_some, List.mem_append, List.mem_singleton,
        Prod.mk.injEq, Option.some.injEq]
      rw [or_left_comm, @eq_comm _ v w]

theorem sorted_around (hfront : ∀ b ∈ front, b.1 < key) (hback : ∀ b ∈ back, key < b.1) :
    Sorted (around front key old back) ↔ Sorted front ∧ Sorted back := by
  rw [around, sorted_append]
  constructor
  · rintro ⟨hf, hrest, -⟩
    exact ⟨hf, (sorted_append.mp hrest).2.1⟩
  · rintro ⟨hf, hb⟩
    have hkey : ∀ b ∈ (old.map fun v => (key, v)).toList, b.1 = key := by
      intro b hb
      obtain ⟨v, -, rfl⟩ : ∃ v, old = some v ∧ (key, v) = b := by simpa using hb
      rfl
    refine ⟨hf, sorted_append.mpr ⟨?_, hb, ?_⟩, ?_⟩
    · cases old with
      | none => exact List.Pairwise.nil
      | some v => exact List.pairwise_singleton _ _
    · intro a ha b hb
      rw [hkey a ha]
      exact hback b hb
    · intro a ha b hb
      obtain hb | hb := List.mem_append.mp hb
      · rw [hkey b hb]
        exact hfront a ha
      · exact lt_trans (hfront a ha) (hback b hb)

theorem toMap_around_self (hfront : ∀ b ∈ front, b.1 < key) (hback : ∀ b ∈ back, key < b.1)
    (h : Sorted (around front key old back)) : toMap (around front key old back) key = old := by
  refine Option.ext fun v => ?_
  rw [h.toMap_eq_some_iff, mem_around]
  constructor
  · rintro (⟨-, hold⟩ | hmem | hmem)
    · exact hold
    · exact absurd (hfront _ hmem) (lt_irrefl _)
    · exact absurd (hback _ hmem) (lt_irrefl _)
  · exact fun hold => Or.inl ⟨rfl, hold⟩

/-- A new binding of the key, or none any more. -/
theorem toMap_around (hfront : ∀ b ∈ front, b.1 < key) (hback : ∀ b ∈ back, key < b.1)
    (h : Sorted (around front key old back)) :
    toMap (around front key new back)
      = Function.update (toMap (around front key old back)) key new := by
  have h' : Sorted (around front key new back) :=
    (sorted_around hfront hback).mpr ((sorted_around hfront hback).mp h)
  funext k
  by_cases heq : k = key
  · subst heq
    rw [Function.update_self, toMap_around_self hfront hback h']
  · rw [Function.update_of_ne heq]
    refine h.toMap_congr h' fun v => ?_
    rw [mem_around, mem_around]
    simp [heq]

end Around

end Memoria.Lib

import Mathlib.Algebra.BigOperators.Group.Finset.Basic
import Mathlib.Algebra.BigOperators.Fin
import Mathlib.Algebra.Order.BigOperators.Group.Finset

/-!
# Heaps of allocated objects

A heap hands out addresses in increasing order and never reuses one, so that a pointer to a released
object stays recognisable as dangling: reading it gives `none`. The `fresh` field keeps the support
finite, which is what lets a quantity be summed over all live objects.
-/

namespace Memoria.Lib

structure Heap (α : Type) where
  cells : Nat → Option α
  next : Nat
  fresh : ∀ p, next ≤ p → cells p = none

namespace Heap

variable {α : Type}

def empty : Heap α where
  cells := fun _ => none
  next := 0
  fresh := fun _ _ => rfl

/-- The object at an address, `none` when it was never allocated or has been released. -/
def read (h : Heap α) (p : Nat) : Option α := h.cells p

def alloc (h : Heap α) (a : α) : Heap α where
  cells := Function.update h.cells h.next (some a)
  next := h.next + 1
  fresh := by
    intro p hp
    have hne : p ≠ h.next := by omega
    rw [Function.update_of_ne hne]
    exact h.fresh p (by omega)

def modify (h : Heap α) (p : Nat) (f : α → α) : Heap α where
  cells := Function.update h.cells p ((h.cells p).map f)
  next := h.next
  fresh := by
    intro q hq
    by_cases heq : q = p
    · subst heq
      simp [h.fresh q hq]
    · rw [Function.update_of_ne heq]
      exact h.fresh q hq

def free (h : Heap α) (p : Nat) : Heap α where
  cells := Function.update h.cells p none
  next := h.next
  fresh := by
    intro q hq
    by_cases heq : q = p
    · subst heq
      simp
    · rw [Function.update_of_ne heq]
      exact h.fresh q hq

@[simp] theorem read_empty (p : Nat) : (empty : Heap α).read p = none := rfl

theorem lt_next_of_read {h : Heap α} {p : Nat} {a : α} (hread : h.read p = some a) :
    p < h.next := by
  by_contra hle
  have := h.fresh p (by omega)
  rw [read, this] at hread
  cases hread

@[simp] theorem read_next (h : Heap α) : h.read h.next = none := h.fresh h.next le_rfl

theorem read_alloc (h : Heap α) (a : α) (p : Nat) :
    (h.alloc a).read p = if p = h.next then some a else h.read p := by
  by_cases heq : p = h.next
  · subst heq
    simp [read, alloc]
  · simp [read, alloc, heq]

@[simp] theorem read_alloc_self (h : Heap α) (a : α) : (h.alloc a).read h.next = some a := by
  simp [read_alloc]

theorem read_alloc_of_read {h : Heap α} {p : Nat} {a b : α} (hread : h.read p = some b) :
    (h.alloc a).read p = some b := by
  have hlt := lt_next_of_read hread
  rw [read_alloc, if_neg (by omega), hread]

@[simp] theorem next_alloc (h : Heap α) (a : α) : (h.alloc a).next = h.next + 1 := rfl

theorem read_modify (h : Heap α) (p q : Nat) (f : α → α) :
    (h.modify p f).read q = if q = p then (h.read q).map f else h.read q := by
  by_cases heq : q = p
  · subst heq
    simp [read, modify]
  · simp [read, modify, heq]

@[simp] theorem read_modify_self (h : Heap α) (p : Nat) (f : α → α) :
    (h.modify p f).read p = (h.read p).map f := by
  simp [read_modify]

theorem read_modify_of_ne {h : Heap α} {p q : Nat} (hne : q ≠ p) (f : α → α) :
    (h.modify p f).read q = h.read q := by
  simp [read_modify, hne]

@[simp] theorem next_modify (h : Heap α) (p : Nat) (f : α → α) : (h.modify p f).next = h.next :=
  rfl

theorem read_free (h : Heap α) (p q : Nat) :
    (h.free p).read q = if q = p then none else h.read q := by
  by_cases heq : q = p
  · subst heq
    simp [read, free]
  · simp [read, free, heq]

@[simp] theorem read_free_self (h : Heap α) (p : Nat) : (h.free p).read p = none := by
  simp [read_free]

theorem read_free_of_ne {h : Heap α} {p q : Nat} (hne : q ≠ p) : (h.free p).read q = h.read q := by
  simp [read_free, hne]

@[simp] theorem next_free (h : Heap α) (p : Nat) : (h.free p).next = h.next := rfl

theorem ext_read {h h' : Heap α} (hnext : h.next = h'.next) (hread : ∀ p, h.read p = h'.read p) :
    h = h' := by
  obtain ⟨cells, next, fresh⟩ := h
  obtain ⟨cells', next', fresh'⟩ := h'
  have hcells : cells = cells' := funext hread
  cases hnext
  cases hcells
  rfl

def sum (h : Heap α) (f : Nat → α → Nat) : Nat :=
  ∑ p ∈ Finset.range h.next, (h.read p).elim 0 (f p)

@[simp] theorem sum_empty (f : Nat → α → Nat) : (empty : Heap α).sum f = 0 := rfl

theorem sum_congr {h h' : Heap α} {f : Nat → α → Nat} (hnext : h'.next = h.next)
    (hsame : ∀ p, (h'.read p).elim 0 (f p) = (h.read p).elim 0 (f p)) : h'.sum f = h.sum f := by
  unfold sum
  rw [hnext]
  exact Finset.sum_congr rfl fun p _ => hsame p

theorem sum_alloc (h : Heap α) (a : α) (f : Nat → α → Nat) :
    (h.alloc a).sum f = h.sum f + f h.next a := by
  unfold sum
  rw [next_alloc, Finset.sum_range_succ, read_alloc_self]
  congr 1
  refine Finset.sum_congr rfl fun p hp => ?_
  have hlt : p < h.next := Finset.mem_range.mp hp
  rw [read_alloc, if_neg (by omega)]

/-- Two heaps of one extent in which `f` sees a difference at one address only. -/
theorem sum_eq_of_eq_off {h k : Heap α} {p : Nat} (f : Nat → α → Nat) (hnext : k.next = h.next)
    (hoff : ∀ q, q ≠ p → (k.read q).elim 0 (f q) = (h.read q).elim 0 (f q)) :
    k.sum f + (h.read p).elim 0 (f p) = h.sum f + (k.read p).elim 0 (f p) := by
  unfold sum
  rw [hnext]
  by_cases hp : p < h.next
  · have hmem : p ∈ Finset.range h.next := Finset.mem_range.mpr hp
    rw [← Finset.sum_erase_add _ _ hmem, ← Finset.sum_erase_add _ _ hmem]
    have hrest : ∑ q ∈ (Finset.range h.next).erase p, (k.read q).elim 0 (f q)
        = ∑ q ∈ (Finset.range h.next).erase p, (h.read q).elim 0 (f q) :=
      Finset.sum_congr rfl fun q hq => hoff q (Finset.ne_of_mem_erase hq)
    rw [hrest]
    omega
  · have hnone : h.read p = none := h.fresh p (by omega)
    have hnone' : k.read p = none := k.fresh p (by omega)
    rw [hnone, hnone']
    congr 1
    refine Finset.sum_congr rfl fun q hq => ?_
    have hlt : q < h.next := Finset.mem_range.mp hq
    exact hoff q (by omega)

theorem sum_modify {h : Heap α} {p : Nat} {a : α} (hread : h.read p = some a) (g : α → α)
    (f : Nat → α → Nat) : (h.modify p g).sum f + f p a = h.sum f + f p (g a) := by
  have := sum_eq_of_eq_off (h := h) (k := h.modify p g) f rfl
    (fun q hq => by rw [read_modify_of_ne hq g])
  simpa [hread] using this

/-- A write that `f` does not see. -/
theorem sum_modify_of_eq {h : Heap α} {p : Nat} (g : α → α) (f : Nat → α → Nat)
    (hf : ∀ a, h.read p = some a → f p (g a) = f p a) : (h.modify p g).sum f = h.sum f := by
  cases hread : h.read p with
  | none =>
      have := sum_eq_of_eq_off (h := h) (k := h.modify p g) f rfl
        (fun q hq => by rw [read_modify_of_ne hq g])
      simpa [hread] using this
  | some a =>
      have := sum_modify hread g f
      rw [hf a hread] at this
      omega

theorem sum_free {h : Heap α} {p : Nat} {a : α} (hread : h.read p = some a)
    (f : Nat → α → Nat) : (h.free p).sum f + f p a = h.sum f := by
  have := sum_eq_of_eq_off (h := h) (k := h.free p) f rfl
    (fun q hq => by rw [read_free_of_ne hq])
  simpa [hread] using this

/-- A live object's own share is part of the sum. -/
theorem le_sum {h : Heap α} {p : Nat} {a : α} (hread : h.read p = some a) (f : Nat → α → Nat) :
    f p a ≤ h.sum f := by
  have := sum_free hread f
  omega

theorem add_le_sum {h : Heap α} {p q : Nat} {a b : α} (hp : h.read p = some a)
    (hq : h.read q = some b) (hne : p ≠ q) (f : Nat → α → Nat) : f p a + f q b ≤ h.sum f := by
  have hfree := sum_free hp f
  have hrest : (h.free p).read q = some b := by rw [read_free_of_ne hne.symm, hq]
  have := le_sum hrest f
  omega

theorem sum_eq_zero {h : Heap α} {f : Nat → α → Nat} :
    h.sum f = 0 ↔ ∀ p a, h.read p = some a → f p a = 0 := by
  unfold sum
  rw [Finset.sum_eq_zero_iff]
  constructor
  · intro hall p a hread
    have := hall p (Finset.mem_range.mpr (lt_next_of_read hread))
    simpa [hread] using this
  · intro hall p _
    cases hread : h.read p with
    | none => rfl
    | some a => exact hall p a hread

end Heap

end Memoria.Lib

import Mathlib.Data.List.Basic
import Mathlib.Data.List.Nodup

/-!
# Neighbours in a list

The element behind another one in a list, and behind it in a concatenation of lists: either in the
same part, or the first one of the next part.
-/

namespace Memoria.Lib

variable {α β : Type}

def Behind (l : List α) (a : α) (next : Option α) : Prop :=
  ∃ before behind, l = before ++ a :: behind ∧ next = behind.head?

def Beyond (forward : Bool) (l : List α) (a : α) (next : Option α) : Prop :=
  Behind (if forward then l else l.reverse) a next

theorem Behind.mem {l : List α} {a : α} {next : Option α} (h : Behind l a next) : a ∈ l := by
  obtain ⟨before, behind, rfl, -⟩ := h
  exact List.mem_append_right before List.mem_cons_self

/-- In a list without repetitions the neighbour is determined. -/
theorem Behind.eq_head? {xs ys : List α} {a : α} {next : Option α}
    (hnodup : (xs ++ a :: ys).Nodup) (h : Behind (xs ++ a :: ys) a next) : next = ys.head? := by
  obtain ⟨before, behind, heq, rfl⟩ := h
  obtain ⟨hmem, -⟩ := List.nodup_cons.mp (List.nodup_middle.mp hnodup)
  rw [List.mem_append, not_or] at hmem
  obtain ⟨-, -, rfl⟩ := (List.append_cons_inj_of_notMem hmem.1 hmem.2).mp heq
  rfl

theorem Beyond.eq_head? {forward : Bool} {xs ys : List α} {a : α} {next : Option α}
    (hnodup : (xs.reverse ++ a :: ys).Nodup) (h : Beyond forward (xs.reverse ++ a :: ys) a next) :
    next = if forward then ys.head? else xs.head? := by
  cases forward with
  | true => exact Behind.eq_head? hnodup h
  | false =>
      have hreverse : (xs.reverse ++ a :: ys).reverse = ys.reverse ++ a :: xs := by
        rw [List.reverse_append, List.reverse_cons, List.reverse_reverse, List.append_assoc]
        rfl
      have hnodup' : (ys.reverse ++ a :: xs).Nodup :=
        hreverse ▸ List.nodup_reverse.mpr hnodup
      exact Behind.eq_head? hnodup' (hreverse ▸ h)

section FlatMap

variable {l : List α} {f : α → List β} {p : α} {a : β}

theorem Behind.flatMap_same {b : β} (hp : p ∈ l) (h : Behind (f p) a (some b)) :
    Behind (l.flatMap f) a (some b) := by
  obtain ⟨xs, ys, rfl⟩ := List.append_of_mem hp
  obtain ⟨before, behind, hf, hb⟩ := h
  refine ⟨xs.flatMap f ++ before, behind ++ ys.flatMap f, ?_, ?_⟩
  · rw [List.flatMap_append, List.flatMap_cons, hf]
    simp only [List.append_assoc, List.cons_append]
  · rw [List.head?_append, ← hb, Option.some_or]

theorem Behind.flatMap_next {q : α} {b : β} (h : Behind (f p) a none) (hq : Behind l p (some q))
    (hb : (f q).head? = some b) : Behind (l.flatMap f) a (some b) := by
  obtain ⟨xs, ys, rfl, hys⟩ := hq
  obtain ⟨before, behind, hf, hend⟩ := h
  obtain rfl := List.head?_eq_none_iff.mp hend.symm
  obtain ⟨zs, rfl⟩ := List.head?_eq_some_iff.mp hys.symm
  refine ⟨xs.flatMap f ++ before, (q :: zs).flatMap f, ?_, ?_⟩
  · rw [List.flatMap_append, List.flatMap_cons, hf]
    simp only [List.append_assoc, List.cons_append, List.nil_append]
  · rw [List.flatMap_cons, List.head?_append, hb, Option.some_or]

theorem Behind.flatMap_end (h : Behind (f p) a none) (hp : Behind l p none) :
    Behind (l.flatMap f) a none := by
  obtain ⟨xs, ys, rfl, hys⟩ := hp
  obtain ⟨before, behind, hf, hend⟩ := h
  obtain rfl := List.head?_eq_none_iff.mp hend.symm
  obtain rfl := List.head?_eq_none_iff.mp hys.symm
  refine ⟨xs.flatMap f ++ before, [], ?_, rfl⟩
  rw [List.flatMap_append, List.flatMap_cons, hf, List.flatMap_nil, List.append_nil,
    List.append_assoc]

end FlatMap

section Directions

variable {forward : Bool} {l : List α} {f : α → List β} {p : α} {a : β}

theorem Beyond.mem {a : α} {next : Option α} (h : Beyond forward l a next) : a ∈ l := by
  cases forward with
  | true => exact Behind.mem h
  | false => exact List.mem_reverse.mp (Behind.mem h)

theorem Beyond.flatMap_same {b : β} (hp : p ∈ l) (h : Beyond forward (f p) a (some b)) :
    Beyond forward (l.flatMap f) a (some b) := by
  cases forward with
  | true => exact Behind.flatMap_same hp h
  | false =>
      change Behind (l.flatMap f).reverse a (some b)
      rw [List.reverse_flatMap]
      exact Behind.flatMap_same (f := List.reverse ∘ f) (List.mem_reverse.mpr hp) h

theorem Beyond.flatMap_next {q : α} {b : β} (h : Beyond forward (f p) a none)
    (hq : Beyond forward l p (some q))
    (hb : (if forward then (f q).head? else (f q).getLast?) = some b) :
    Beyond forward (l.flatMap f) a (some b) := by
  cases forward with
  | true => exact Behind.flatMap_next h hq hb
  | false =>
      change Behind (l.flatMap f).reverse a (some b)
      rw [List.reverse_flatMap]
      refine Behind.flatMap_next (f := List.reverse ∘ f) h hq ?_
      exact List.head?_reverse.trans hb

theorem Beyond.flatMap_end (h : Beyond forward (f p) a none) (hp : Beyond forward l p none) :
    Beyond forward (l.flatMap f) a none := by
  cases forward with
  | true => exact Behind.flatMap_end h hp
  | false =>
      change Behind (l.flatMap f).reverse a none
      rw [List.reverse_flatMap]
      exact Behind.flatMap_end (f := List.reverse ∘ f) h hp

/-- The neighbour of an element whose index is known. -/
theorem beyond_of_getElem? {idx : ℕ} {a : α} (ha : l[idx]? = some a) :
    Beyond forward l a
      (if forward then l[idx + 1]? else if 0 < idx then l[idx - 1]? else none) := by
  have hlt := (List.getElem?_eq_some_iff.mp ha).1
  have hl : l = l.take idx ++ a :: l.drop (idx + 1) := by
    have hdrop : l.drop idx = a :: l.drop (idx + 1) := by
      rw [List.drop_eq_getElem_cons hlt, (List.getElem?_eq_some_iff.mp ha).2]
    rw [← hdrop, List.take_append_drop]
  cases forward with
  | true => exact ⟨l.take idx, l.drop (idx + 1), hl, List.head?_drop.symm⟩
  | false =>
      refine ⟨(l.drop (idx + 1)).reverse, (l.take idx).reverse, ?_, ?_⟩
      · have hreverse := congrArg List.reverse hl
        rw [List.reverse_append, List.reverse_cons, List.append_assoc] at hreverse
        exact hreverse
      · rw [List.head?_reverse, List.getLast?_take]
        by_cases hidx : 0 < idx
        · have hget : l[idx - 1]? = some l[idx - 1] := List.getElem?_eq_getElem (by omega)
          simp only [Bool.false_eq_true, if_false, if_pos hidx, hget, Option.some_or]
          rw [if_neg (Nat.ne_of_gt hidx)]
        · obtain rfl : idx = 0 := by omega
          rfl

end Directions

end Memoria.Lib

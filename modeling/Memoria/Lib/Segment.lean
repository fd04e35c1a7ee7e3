import Mathlib.Algebra.Ring.Nat
import Mathlib.Data.List.Basic
import Mathlib.Order.Lattice

/-!
# Segments of memory

A segment is a list of units of which a front part is in use. What stands behind that part, or in
space that has just been made, is of no meaning: the lemmas say that there is some such rest and how
long it is.
-/

namespace Memoria.Lib

variable {α : Type}

def overwrite (segment : List α) (pos : Nat) (units : List α) : List α :=
  segment.take pos ++ units ++ segment.drop (pos + units.length)

def moveUnits (segment : List α) (source target size : Nat) : List α :=
  overwrite segment target ((segment.drop source).take size)

def resizeSegment (junk : α) (segment : List α) (size : Nat) : List α :=
  segment.take size ++ List.replicate (size - segment.length) junk

theorem overwrite_append (front old rest units : List α) (h : old.length = units.length) :
    overwrite (front ++ (old ++ rest)) front.length units = front ++ (units ++ rest) := by
  have hdrop : (front ++ (old ++ rest)).drop (front.length + units.length) = rest := by
    rw [← h, ← List.drop_drop, List.drop_left, List.drop_left]
  rw [overwrite, hdrop, List.take_left, List.append_assoc]

theorem length_overwrite {segment units : List α} {pos : Nat}
    (h : pos + units.length ≤ segment.length) :
    (overwrite segment pos units).length = segment.length := by
  simp only [overwrite, List.length_append, List.length_take, List.length_drop]
  omega

theorem drop_overwrite {segment units : List α} {pos p : Nat}
    (hfits : pos + units.length ≤ segment.length) (hp : pos + units.length ≤ p) :
    (overwrite segment pos units).drop p = segment.drop p := by
  have hlength : (segment.take pos ++ units).length = pos + units.length := by
    rw [List.length_append, List.length_take_of_le (Nat.le_of_add_right_le hfits)]
  rw [overwrite, List.drop_append, hlength, List.drop_of_length_le (hlength ▸ hp), List.nil_append,
    List.drop_drop, Nat.add_sub_cancel' hp]

theorem take_drop_overwrite {segment units : List α} {pos : Nat} (hpos : pos ≤ segment.length) :
    ((overwrite segment pos units).drop pos).take units.length = units := by
  have hlength : (segment.take pos).length = pos := List.length_take_of_le hpos
  rw [overwrite, List.append_assoc, List.drop_left' hlength, List.take_left]

/-- What is behind `front` moves up, and leaves a gap. -/
theorem exists_moveUp (front back rest : List α) (gap : Nat) (h : gap ≤ rest.length) :
    ∃ hole rest', hole.length = gap ∧ rest'.length + gap = rest.length ∧
      moveUnits (front ++ (back ++ rest)) front.length (front.length + gap) back.length
        = front ++ (hole ++ (back ++ rest')) := by
  refine ⟨(back ++ rest).take gap, rest.drop gap, ?_, ?_, ?_⟩
  · rw [List.length_take, List.length_append]
    omega
  · rw [List.length_drop]
    omega
  · have hmoved : ((front ++ (back ++ rest)).drop front.length).take back.length = back := by
      rw [List.drop_left, List.take_left]
    have hbehind : (front ++ (back ++ rest)).drop (front.length + gap + back.length)
        = rest.drop gap := by
      rw [Nat.add_assoc, Nat.add_comm gap, ← List.drop_drop, List.drop_left, ← List.drop_drop,
        List.drop_left]
    have hfront : (front ++ (back ++ rest)).take (front.length + gap)
        = front ++ (back ++ rest).take gap := by
      rw [List.take_append, List.take_of_length_le (Nat.le_add_right _ _), Nat.add_sub_cancel_left]
    rw [moveUnits, hmoved, overwrite, hbehind, hfront]
    simp only [List.append_assoc]

/-- What is behind `gone` moves down over it. -/
theorem exists_moveDown (front gone back rest : List α) :
    ∃ rest', rest'.length = gone.length + rest.length ∧
      moveUnits (front ++ (gone ++ (back ++ rest))) (front.length + gone.length) front.length
        back.length = front ++ (back ++ rest') := by
  have hmoved : ((front ++ (gone ++ (back ++ rest))).drop (front.length + gone.length)).take
      back.length = back := by
    rw [← List.drop_drop, List.drop_left, List.drop_left, List.take_left]
  refine ⟨(gone ++ (back ++ rest)).drop back.length, ?_, ?_⟩
  · simp only [List.length_drop, List.length_append]
    omega
  · rw [moveUnits, hmoved, overwrite, List.take_left, ← List.drop_drop, List.drop_left,
      List.append_assoc]

theorem exists_resize (junk : α) (data rest : List α) (size : Nat) (h : data.length ≤ size) :
    ∃ rest', data.length + rest'.length = size ∧
      resizeSegment junk (data ++ rest) size = data ++ rest' := by
  refine ⟨rest.take (size - data.length)
    ++ List.replicate (size - (data ++ rest).length) junk, ?_, ?_⟩
  · simp only [List.length_append, List.length_take, List.length_replicate]
    omega
  · rw [resizeSegment, List.take_append, List.take_of_length_le h, List.append_assoc]

section Parts

variable {ι : Type} (length : ι → Nat)

def starts : Nat → List ι → List (Nat × ι)
  | _, [] => []
  | pos, part :: parts => (pos, part) :: starts (pos + length part) parts

@[simp]
theorem length_starts (pos : Nat) (parts : List ι) :
    (starts length pos parts).length = parts.length := by
  induction parts generalizing pos with
  | nil => rfl
  | cons part parts ih => simp [starts, ih]

theorem getElem?_starts (pos : Nat) (parts : List ι) (k : Nat) :
    (starts length pos parts)[k]?
      = parts[k]?.map fun part => (pos + ((parts.take k).map length).sum, part) := by
  induction parts generalizing pos k with
  | nil => rfl
  | cons part parts ih =>
      cases k with
      | zero => simp [starts]
      | succ k => simp [starts, ih, Nat.add_assoc]

variable {length}

theorem le_of_mem_starts {pos : Nat} {parts : List ι} {e : Nat × ι}
    (he : e ∈ starts length pos parts) : pos ≤ e.1 := by
  induction parts generalizing pos with
  | nil => cases he
  | cons part parts ih =>
      obtain rfl | he := List.mem_cons.mp he
      · exact Nat.le_refl _
      · exact Nat.le_trans (Nat.le_add_right _ _) (ih he)

theorem lt_of_mem_starts (hpos : ∀ part, 0 < length part) {pos : Nat} {parts : List ι}
    {e : Nat × ι} (he : e ∈ starts length pos parts) : e.1 < pos + (parts.map length).sum := by
  induction parts generalizing pos with
  | nil => cases he
  | cons part parts ih =>
      have hpart := hpos part
      rw [List.map_cons, List.sum_cons]
      obtain rfl | he := List.mem_cons.mp he
      · omega
      · have := ih he
        omega

theorem pairwise_starts (hpos : ∀ part, 0 < length part) (pos : Nat) (parts : List ι) :
    (starts length pos parts).Pairwise fun a b => a.1 < b.1 := by
  induction parts generalizing pos with
  | nil => exact .nil
  | cons part parts ih =>
      refine .cons (fun e he => ?_) (ih _)
      have hle := le_of_mem_starts he
      have hpart := hpos part
      change pos < e.1
      omega

end Parts

end Memoria.Lib

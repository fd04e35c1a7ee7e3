import Mathlib.Algebra.Ring.Nat

/-!
# How many elements fit into a block

`FindTotalElementsNumber2` looks for the number of elements by bisection and then goes on in steps
of one, a limited number of them. The outer option is the one of `int32_t` arithmetic: `none` is an
overflow.
-/

namespace Memoria.PackedTools

structure SizeFn where
  blockSize : ℕ → Except String ℕ
  maxElements : ℕ → ℕ

def int32Bound : ℕ := 2 ^ 31

def tooManySteps : String := "Can't find max_size in 64 steps. Stop."

def stepLoop (fn : SizeFn) (blockSize start : ℕ) : ℕ → ℕ → ℕ → Option (Except String ℕ)
  | 0, _, _ => some (.error tooManySteps)
  | hops + 1, c, maxSize =>
      if start + c < int32Bound then
        match fn.blockSize (start + c) with
        | .error message => some (.error message)
        | .ok size =>
            if size ≤ blockSize then stepLoop fn blockSize start hops (c + 1) (start + c)
            else some (.ok maxSize)
      else none

def bisect (fn : SizeFn) (blockSize first last : ℕ) : Option (Except String ℕ) :=
  if _ : first < last - 1 then
    if first + last < int32Bound then
      match fn.blockSize ((first + last) / 2) with
      | .error message => some (.error message)
      | .ok size =>
          if size < blockSize then bisect fn blockSize ((first + last) / 2) last
          else if size > blockSize then bisect fn blockSize first ((first + last) / 2)
          else stepLoop fn blockSize ((first + last) / 2) 256 0 ((first + last) / 2)
    else none
  else stepLoop fn blockSize first 1024 0 first
termination_by last - first

def findTotalElementsNumber2 (fn : SizeFn) (blockSize : ℕ) : Option (Except String ℕ) :=
  bisect fn blockSize 0 (fn.maxElements blockSize)

def SizeFn.of (size maxElements : ℕ → ℕ) : SizeFn := ⟨fun items => .ok (size items), maxElements⟩

/-- The search gives up: 256 numbers from one below `max_elements` on need just the whole block, or
the block holds 1022 elements more than `max_elements`. -/
def Far (size : ℕ → ℕ) (maxElements blockSize : ℕ) : Prop :=
  (∃ items < maxElements, ∀ c < 256, size (items + c) = blockSize) ∨
    size (maxElements - 1 + 1023) ≤ blockSize

end Memoria.PackedTools

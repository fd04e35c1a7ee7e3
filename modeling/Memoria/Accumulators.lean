import Memoria.Lib.Limbs

/-!
# The accumulators

Unsigned integers of any number of limbs of 64 bits. The sum and the difference go over the limbs
from the lowest one, with the primitives for an addition and a subtraction with a carry that the
code has for the compiler without such built-ins.
-/

namespace Memoria

open Lib

namespace BuiltinAddCH

def process (x y carryIn : BitVec 64) : BitVec 64 × BitVec 64 :=
  let res1 := x + carryIn
  let res2 := res1 + y
  (res2, if BitVec.uaddOverflow res1 y then 1 else 0)

end BuiltinAddCH

namespace BuiltinSubCH

def process (x y carryIn : BitVec 64) : BitVec 64 × BitVec 64 :=
  let res1 := x - carryIn
  let carryOut1 := BitVec.usubOverflow x carryIn
  let res2 := res1 - y
  let carryOut2 := BitVec.usubOverflow res1 y
  (res2, if carryOut1 || carryOut2 then 1 else 0)

end BuiltinSubCH

section LongOps

variable (process : BitVec 64 → BitVec 64 → BitVec 64 → BitVec 64 × BitVec 64)

structure LimbLoop where
  dest : ℕ → BitVec 64
  carry : BitVec 64

def limbLoop (dest x y : ℕ → BitVec 64) (length : ℕ) : LimbLoop :=
  (List.range length).foldl
    (fun state c =>
      let limb := process (x c) (y c) state.carry
      ⟨Function.update state.dest c limb.1, limb.2⟩)
    ⟨dest, 0⟩

def limbLoopInPlace (dest source : ℕ → BitVec 64) (length : ℕ) : LimbLoop :=
  (List.range length).foldl
    (fun state c =>
      let limb := process (state.dest c) (source c) state.carry
      ⟨Function.update state.dest c limb.1, limb.2⟩)
    ⟨dest, 0⟩

def LimbLoop.result (loop : LimbLoop) : (ℕ → BitVec 64) × Bool :=
  (loop.dest, loop.carry == 0)

end LongOps

def longAddTo (dest source : ℕ → BitVec 64) (length : ℕ) : (ℕ → BitVec 64) × Bool :=
  (limbLoopInPlace BuiltinAddCH.process dest source length).result

def longAddTo₂ (dest x y : ℕ → BitVec 64) (length : ℕ) : (ℕ → BitVec 64) × Bool :=
  (limbLoop BuiltinAddCH.process dest x y length).result

def longSubFrom (dest op : ℕ → BitVec 64) (length : ℕ) : (ℕ → BitVec 64) × Bool :=
  (limbLoopInPlace BuiltinSubCH.process dest op length).result

def longSubFrom₂ (dest x y : ℕ → BitVec 64) (length : ℕ) : (ℕ → BitVec 64) × Bool :=
  (limbLoop BuiltinSubCH.process dest x y length).result

namespace UnsignedAccumulator

def size (bitLength : ℕ) : ℕ :=
  bitLength / 64 + if bitLength % 64 > 0 then 1 else 0

end UnsignedAccumulator

structure UnsignedAccumulator (bitLength : ℕ) where
  value : Vector (BitVec 64) (UnsignedAccumulator.size bitLength)

namespace UnsignedAccumulator

variable {bitLength : ℕ}

def limbs (acc : UnsignedAccumulator bitLength) (c : ℕ) : BitVec 64 := acc.value[c]?.getD 0

def ofLimbs (limbs : ℕ → BitVec 64) : UnsignedAccumulator bitLength :=
  ⟨Vector.ofFn fun c => limbs c⟩

def zero : UnsignedAccumulator bitLength := ofLimbs fun _ => 0

def single (other : BitVec 64) : ℕ → BitVec 64 := Function.update (fun _ => 0) 0 other

def addAssign (acc other : UnsignedAccumulator bitLength) : UnsignedAccumulator bitLength :=
  ofLimbs (longAddTo acc.limbs other.limbs (size bitLength)).1

def addAssignValue (acc : UnsignedAccumulator bitLength) (other : BitVec 64) :
    UnsignedAccumulator bitLength :=
  ofLimbs (longAddTo acc.limbs (single other) (size bitLength)).1

def subAssign (acc other : UnsignedAccumulator bitLength) : UnsignedAccumulator bitLength :=
  ofLimbs (longSubFrom acc.limbs other.limbs (size bitLength)).1

def subAssignValue (acc : UnsignedAccumulator bitLength) (other : BitVec 64) :
    UnsignedAccumulator bitLength :=
  ofLimbs (longSubFrom acc.limbs (single other) (size bitLength)).1

def preIncrement (acc : UnsignedAccumulator bitLength) :
    UnsignedAccumulator bitLength × UnsignedAccumulator bitLength :=
  let tmp := acc
  (acc, tmp.addAssignValue 1)

def postIncrement (acc : UnsignedAccumulator bitLength) : UnsignedAccumulator bitLength :=
  acc.addAssignValue 1

def preDecrement (acc : UnsignedAccumulator bitLength) :
    UnsignedAccumulator bitLength × UnsignedAccumulator bitLength :=
  let tmp := acc
  (acc, tmp.subAssignValue 1)

def postDecrement (acc : UnsignedAccumulator bitLength) : UnsignedAccumulator bitLength :=
  acc.subAssignValue 1

def add (acc other : UnsignedAccumulator bitLength) : UnsignedAccumulator bitLength :=
  let tmp : UnsignedAccumulator bitLength := zero
  ofLimbs (longAddTo₂ tmp.limbs acc.limbs other.limbs (size bitLength)).1

def addValue (acc : UnsignedAccumulator bitLength) (other : BitVec 64) :
    UnsignedAccumulator bitLength :=
  let result : UnsignedAccumulator bitLength := zero
  ofLimbs (longAddTo₂ result.limbs acc.limbs (single other) (size bitLength)).1

def sub (acc other : UnsignedAccumulator bitLength) : UnsignedAccumulator bitLength :=
  let tmp : UnsignedAccumulator bitLength := zero
  ofLimbs (longSubFrom₂ tmp.limbs acc.limbs other.limbs (size bitLength)).1

def subValue (acc : UnsignedAccumulator bitLength) (other : BitVec 64) :
    UnsignedAccumulator bitLength :=
  let result : UnsignedAccumulator bitLength := zero
  ofLimbs (longSubFrom₂ result.limbs acc.limbs (single other) (size bitLength)).1

/-- The limbs from `c` down to the second: the first one that differs decides. The lowest limb is
left to `last`. -/
def compareFrom (differs last : BitVec 64 → BitVec 64 → Bool) (a b : ℕ → BitVec 64) : ℕ → Bool
  | 0 => last (a 0) (b 0)
  | c + 1 =>
      if a (c + 1) ≠ b (c + 1) then differs (a (c + 1)) (b (c + 1))
      else compareFrom differs last a b c

def lt (acc other : UnsignedAccumulator bitLength) : Bool :=
  compareFrom (· < ·) (· < ·) acc.limbs other.limbs (size bitLength - 1)

def le (acc other : UnsignedAccumulator bitLength) : Bool :=
  compareFrom (· < ·) (· ≤ ·) acc.limbs other.limbs (size bitLength - 1)

def gt (acc other : UnsignedAccumulator bitLength) : Bool :=
  compareFrom (· > ·) (· > ·) acc.limbs other.limbs (size bitLength - 1)

def ge (acc other : UnsignedAccumulator bitLength) : Bool :=
  compareFrom (· > ·) (· ≥ ·) acc.limbs other.limbs (size bitLength - 1)

def ne (acc other : UnsignedAccumulator bitLength) : Bool :=
  (List.range (size bitLength)).any fun c => acc.limbs c != other.limbs c

def eq (acc other : UnsignedAccumulator bitLength) : Bool :=
  (List.range (size bitLength)).all fun c => acc.limbs c == other.limbs c

end UnsignedAccumulator

end Memoria

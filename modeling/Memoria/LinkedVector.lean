import Mathlib.Algebra.Ring.Nat
import Mathlib.Order.Lattice
import Memoria.Lib.Slots

/-!
# `LinkedDynVector` and `LinkedVector`

Vectors in an arena. The two classes have the same state and the same loops; `LinkedDynVector` has
its slots in an allocation of their own, which it replaces with a larger one when it is full, and
`LinkedVector` has them in the object itself, `object_size(capacity)` long. The slots are those of
the allocation, whatever the vector takes its capacity to be. A count is a `ℕ`: the `uint32_t` of
the source is enough for vectors of less than 2 ^ 31 slots, and with more `capacity_ * 2` wraps.
-/

namespace Memoria

open Lib

inductive VectorClass
  | dyn
  | fixed
  deriving DecidableEq, Repr

structure LinkedVector (T : Type) where
  capacity : ℕ
  size : ℕ
  data : Slots T

namespace LinkedVector

variable {T : Type}

def elements (vector : LinkedVector T) : List T :=
  vector.data.contents vector.size

def create (capacity : ℕ) (memory : ℕ → T) : LinkedVector T :=
  ⟨capacity, 0, ⟨memory, capacity, false⟩⟩

/-- The loop of `shift_right`, of at most `fuel` rounds: `none` where there is another one to do.
The counter is a `size_t`, and `c--` takes it from 0 to its largest value. -/
def shiftLoop (idx size : ℕ) : ℕ → ℕ → Slots T → Option (Slots T)
  | 0, _, _ => none
  | fuel + 1, c, data =>
      if c ≥ idx then
        let next := if c = 0 then 2 ^ 64 - 1 else c - 1
        shiftLoop idx size fuel next (data.write (c + size) (data.cells c))
      else some data

def shiftRight (vector : LinkedVector T) (idx size : ℕ) : Option (LinkedVector T) := do
  let last := vector.size - size
  let data ← shiftLoop idx size (last + 2) last vector.data
  return { vector with data := data }

variable [Inhabited T]

def createFixed (capacity : ℕ) (memory : ℕ → T) : LinkedVector T :=
  ⟨capacity, 0, (Slots.mk memory capacity false).fill (fun _ => default) 0 capacity⟩

def remove (vector : LinkedVector T) (idx size : ℕ) : LinkedVector T :=
  let moved := vector.data.moveDown size (idx + size) (vector.size - (idx + size))
  let start := vector.size - size
  { vector with
    data := moved.fill (fun _ => default) start (vector.size - start)
    size := vector.size - size }

def clear (vector : LinkedVector T) : LinkedVector T :=
  { vector with
    size := 0
    data := vector.data.fill (fun _ => default) 0 vector.capacity }

/-! ### `LinkedVector`

The result of an operation that can fail comes with what it returns: `false` where the vector is
full. -/

def pushBack (vector : LinkedVector T) (value : T) : LinkedVector T × Bool :=
  if vector.size + 1 ≤ vector.capacity then
    ({ vector with data := vector.data.write vector.size value, size := vector.size + 1 }, true)
  else (vector, false)

def insert (vector : LinkedVector T) (idx : ℕ) (value : T) : Option (LinkedVector T × Bool) :=
  if vector.size + 1 ≤ vector.capacity then do
    let shifted ← shiftRight { vector with size := vector.size + 1 } idx 1
    return ({ shifted with data := shifted.data.write idx value }, true)
  else some (vector, false)

/-- The insertion of a span. The loop that copies it runs from `idx` to the length of the span. -/
def insertSpan (vector : LinkedVector T) (idx : ℕ) (data : List T) :
    Option (LinkedVector T × Bool) :=
  if vector.size + data.length ≤ vector.capacity then do
    let shifted ← shiftRight { vector with size := vector.size + data.length } idx data.length
    let copied := shifted.data.fill (fun c => data.getD (c - idx) default) idx (data.length - idx)
    return ({ shifted with data := copied }, true)
  else some (vector, false)

def copyTo (vector dst : LinkedVector T) : LinkedVector T :=
  { dst with
    size := vector.size
    data := dst.data.fill vector.data.cells 0 vector.size }

end LinkedVector

namespace LinkedDynVector

open LinkedVector

variable {T : Type}

def nextCapacity (need next : ℕ) (hnext : 0 < next) : ℕ :=
  if need > next then nextCapacity need (next * 2) (by omega) else next
termination_by need - next

def enlarge (vector : LinkedVector T) (requested : ℕ) (memory : ℕ → T) : LinkedVector T :=
  let doubled := if vector.capacity * 2 = 0 then 1 else vector.capacity * 2
  let next_capacity := nextCapacity (vector.capacity + requested) doubled (by grind)
  let data : Slots T := ⟨memory, next_capacity, vector.data.overrun⟩
  { vector with
    data := data.fill vector.data.cells 0 vector.size
    capacity := next_capacity }

def ensure (vector : LinkedVector T) (size : ℕ) (memory : ℕ → T) : LinkedVector T :=
  if vector.size + size > vector.capacity then
    enlarge vector (vector.size + size - vector.capacity) memory
  else vector

def deepCopyTo (vector : LinkedVector T) (helper : T → T) (memory : ℕ → T) : LinkedVector T :=
  let foreign_data : Slots T := ⟨memory, vector.size, false⟩
  { vector with data := foreign_data.fill (fun c => helper (vector.data.cells c)) 0 vector.size }

variable [Inhabited T]

def pushBack (vector : LinkedVector T) (value : T) (memory : ℕ → T) : LinkedVector T :=
  ((ensure vector 1 memory).pushBack value).1

def insert (vector : LinkedVector T) (idx : ℕ) (value : T) (memory : ℕ → T) :
    Option (LinkedVector T) :=
  ((ensure vector 1 memory).insert idx value).map Prod.fst

def insertSpan (vector : LinkedVector T) (idx : ℕ) (data : List T) (memory : ℕ → T) :
    Option (LinkedVector T) :=
  ((ensure vector data.length memory).insertSpan idx data).map Prod.fst

end LinkedDynVector

namespace LinkedVector

variable {T : Type} [Inhabited T]

inductive Edit (T : Type)
  | pushBack (value : T)
  | insert (idx : ℕ) (value : T)
  | insertSpan (idx : ℕ) (data : List T)
  | remove (idx size : ℕ)
  | clear

namespace Edit

def onList : Edit T → List T → List T
  | pushBack value, l => l ++ [value]
  | insert idx value, l => l.insertIdx idx value
  | insertSpan idx data, l => l.take idx ++ data ++ l.drop idx
  | remove idx size, l => l.take idx ++ l.drop (idx + size)
  | clear, _ => []

def added : Edit T → ℕ
  | pushBack _ => 1
  | insert _ _ => 1
  | insertSpan _ data => data.length
  | remove _ _ => 0
  | clear => 0

def InRange : Edit T → ℕ → Prop
  | pushBack _, _ => True
  | insert idx _, size => idx ≤ size
  | insertSpan idx _, size => idx ≤ size
  | remove idx n, size => idx + n ≤ size
  | clear, _ => True

instance (edit : Edit T) (size : ℕ) : Decidable (edit.InRange size) := by
  cases edit <;> unfold InRange <;> infer_instance

def onFixed : Edit T → LinkedVector T → Option (LinkedVector T × Bool)
  | pushBack value, vector => some (vector.pushBack value)
  | insert idx value, vector => vector.insert idx value
  | insertSpan idx data, vector => vector.insertSpan idx data
  | remove idx size, vector => some (vector.remove idx size, true)
  | clear, vector => some (vector.clear, true)

def onDyn (memory : ℕ → T) : Edit T → LinkedVector T → Option (LinkedVector T)
  | pushBack value, vector => some (LinkedDynVector.pushBack vector value memory)
  | insert idx value, vector => LinkedDynVector.insert vector idx value memory
  | insertSpan idx data, vector => LinkedDynVector.insertSpan vector idx data memory
  | remove idx size, vector => some (vector.remove idx size)
  | clear, vector => some vector.clear

end Edit

structure Tracked (T : Type) where
  cls : VectorClass
  vector : LinkedVector T
  content : List T

namespace Tracked

def create (cls : VectorClass) (capacity : ℕ) (memory : ℕ → T) : Tracked T :=
  match cls with
  | .dyn => ⟨cls, LinkedVector.create capacity memory, []⟩
  | .fixed => ⟨cls, LinkedVector.createFixed capacity memory, []⟩

def run (entry : Tracked T) (memory : ℕ → T) (edit : Edit T) : Option (LinkedVector T) :=
  match entry.cls with
  | .dyn => edit.onDyn memory entry.vector
  | .fixed => (edit.onFixed entry.vector).map Prod.fst

def Admits (entry : Tracked T) (edit : Edit T) : Prop :=
  edit.InRange entry.vector.size ∧
    (entry.cls = .fixed → entry.vector.size + edit.added ≤ entry.vector.capacity)

instance (entry : Tracked T) (edit : Edit T) : Decidable (entry.Admits edit) := by
  unfold Admits
  infer_instance

structure Right (entry : Tracked T) : Prop where
  elements_eq : entry.vector.elements = entry.content
  size_le : entry.vector.size ≤ entry.vector.capacity
  not_overrun : entry.vector.data.overrun = false

/-- The vector as it is when `ensure`, which a `LinkedVector` does not have, has been called. -/
def ensured (entry : Tracked T) (memory : ℕ → T) (edit : Edit T) : LinkedVector T :=
  match entry.cls with
  | .dyn => LinkedDynVector.ensure entry.vector edit.added memory
  | .fixed => entry.vector

/-- What an operation needs to be the one on lists. An insertion has to be past the front, and needs
a slot more than its elements; a span needs its last values to be where they should go. -/
def Sound (entry : Tracked T) (memory : ℕ → T) (edit : Edit T) : Prop :=
  let size := entry.vector.size
  let data := (entry.ensured memory edit).data
  match edit with
  | .pushBack _ => size < data.allocated
  | .insert idx _ => 0 < idx ∧ size + 1 < data.allocated
  | .insertSpan idx values => 0 < idx ∧ size + values.length < data.allocated ∧
      ∀ i (hi : i < values.length), values.length ≤ idx + i → data.cells (idx + i) = values[i]
  | .remove _ _ => True
  | .clear => entry.vector.capacity ≤ entry.vector.data.allocated

end Tracked

structure Session (T : Type) where
  vectors : List (Tracked T)
  ended : Bool

namespace Session

inductive Op (T : Type)
  | create (cls : VectorClass) (capacity : ℕ) (memory : ℕ → T)
  | edit (target : ℕ) (edit : Edit T) (memory : ℕ → T)
  | deepCopyTo (target : ℕ) (helper : T → T) (memory : ℕ → T)

def start : Session T :=
  ⟨[], true⟩

def step (session : Session T) : Op T → Option (Session T)
  | .create cls capacity memory =>
      some { session with vectors := session.vectors ++ [Tracked.create cls capacity memory] }
  | .edit target edit memory => do
      let entry ← session.vectors[target]?
      if entry.Admits edit then
        match entry.run memory edit with
        | some vector =>
            let content := edit.onList entry.content
            some { session with vectors := session.vectors.set target ⟨entry.cls, vector, content⟩ }
        | none => some { session with ended := false }
      else none
  | .deepCopyTo target helper memory => do
      let entry ← session.vectors[target]?
      if entry.cls = .dyn then
        let copy := LinkedDynVector.deepCopyTo entry.vector helper memory
        some { session with
          vectors := session.vectors ++ [⟨.dyn, copy, entry.content.map helper⟩] }
      else none

def Right (session : Session T) : Prop :=
  session.ended = true ∧ ∀ entry ∈ session.vectors, entry.Right

def StepSound (session : Session T) : Op T → Prop
  | .edit target edit memory => ∀ entry, session.vectors[target]? = some entry → entry.Admits edit →
      entry.Sound memory edit
  | _ => True

end Session

end LinkedVector

end Memoria

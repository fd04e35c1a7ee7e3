import Memoria.LinkedVector

/-!
# Editing a type declaration

`LDTypeDeclarationView` in an arena that grows. The parameters and the constructor arguments of a
declaration are two vectors with the same code, each absent until something is added. An element is
the offset of what was added; what an operation allocates for it, before it touches a vector, is a
list of byte counts. A raw pointer goes into the block the arena has at the time; the arena leaves
its block when it grows, and a write through a pointer into the old one is lost.
-/

namespace Memoria

open Lib

structure LinkedArena where
  capacity : ℕ
  size : ℕ
  block : ℕ
  memory : ℕ → ℕ

namespace LinkedArena

def Moves (arena : LinkedArena) (bytes : ℕ) : Prop :=
  arena.size + bytes > arena.capacity

instance (arena : LinkedArena) (bytes : ℕ) : Decidable (arena.Moves bytes) :=
  inferInstanceAs (Decidable (_ > _))

def enlarge (arena : LinkedArena) (requested : ℕ) : LinkedArena :=
  let doubled := if arena.capacity * 2 = 0 then 1 else arena.capacity * 2
  { arena with
    capacity := LinkedDynVector.nextCapacity (arena.capacity + requested) doubled (by grind)
    block := arena.block + 1 }

def extend (arena : LinkedArena) (bytes : ℕ) : LinkedArena :=
  let ensured :=
    if arena.Moves bytes then arena.enlarge (arena.size + bytes - arena.capacity) else arena
  { ensured with size := ensured.size + bytes }

def alignUp (value alignment : ℕ) : ℕ :=
  let mask := alignment - 1
  if value &&& mask = 0 then value else (value ||| mask) + 1

/-- What `allocate` takes for a `LinkedVector` of pointers: the two counters, eight bytes an
element, and the padding before it. -/
def vectorBytes (arena : LinkedArena) (capacity : ℕ) : ℕ :=
  (alignUp arena.size 8 - arena.size) + (8 + 8 * capacity)

end LinkedArena

/-- `type_params` or `ctr_args`, `none` where it is null. -/
abbrev DeclField := Option (LinkedVector ℕ)

namespace DeclField

def count : DeclField → ℕ
  | some vector => vector.size
  | none => 0

/-- The element at an index, `none` where the code throws. -/
def get : DeclField → ℕ → Option ℕ
  | some vector, idx => if idx < vector.size then some (vector.data.cells idx) else none
  | none, _ => none

structure Ensured where
  vector : LinkedVector ℕ
  attached : Bool
  arena : LinkedArena

def nextSize (capacity requested : ℕ) : ℕ :=
  let doubled := if capacity * 2 = 0 then 1 else capacity * 2
  LinkedDynVector.nextCapacity (capacity + requested) doubled (by grind)

def ensureCapacity (field : DeclField) (arena : LinkedArena) (capacity : ℕ) : Ensured :=
  match field with
  | none =>
      -- `state` is read before the allocation, and written through after it.
      let state := arena.block
      let allocated := arena.extend (arena.vectorBytes capacity)
      ⟨LinkedVector.createFixed capacity arena.memory, decide (state = allocated.block), allocated⟩
  | some vector =>
      if vector.capacity - vector.size ≥ capacity then ⟨vector, true, arena⟩
      else
        -- Here `state` is read again after the allocation.
        let new_size := nextSize vector.size 1
        let allocated := arena.extend (arena.vectorBytes new_size)
        ⟨vector.copyTo (LinkedVector.createFixed new_size arena.memory), true, allocated⟩

def add (field : DeclField) (arena : LinkedArena) (value : ℕ) : DeclField × LinkedArena :=
  let ensured := field.ensureCapacity arena 1
  let pushed := (ensured.vector.pushBack value).1
  (if ensured.attached then some pushed else field, ensured.arena)

/-- The removal of an element, and whether it throws. There is no `return` before the `throw`. -/
def remove (field : DeclField) (idx : ℕ) : DeclField × Bool :=
  match field with
  | none => (none, true)
  | some vector =>
      if idx < vector.size then
        (if vector.size = 1 then none else some (vector.remove idx 1), true)
      else (some vector, true)

end DeclField

structure LDTypeDeclaration where
  typeParams : DeclField
  ctrArgs : DeclField

namespace LDTypeDeclaration

def params (decl : LDTypeDeclaration) : ℕ :=
  decl.typeParams.count

def getTypeDeclaration (decl : LDTypeDeclaration) (idx : ℕ) : Option ℕ :=
  decl.typeParams.get idx

def constructorArgs (decl : LDTypeDeclaration) : ℕ :=
  decl.ctrArgs.count

def getConstructorArg (decl : LDTypeDeclaration) (idx : ℕ) : Option ℕ :=
  decl.ctrArgs.get idx

def addTypeDeclaration (decl : LDTypeDeclaration) (arena : LinkedArena) (value : ℕ)
    (before : List ℕ) : LDTypeDeclaration × LinkedArena :=
  let added := decl.typeParams.add (before.foldl LinkedArena.extend arena) value
  ({ decl with typeParams := added.1 }, added.2)

/-- `add_string_constructor_arg`, and those for a double, an integer, an array and a map, which
differ in what they allocate for the new value. -/
def addConstructorArg (decl : LDTypeDeclaration) (arena : LinkedArena) (value : ℕ)
    (before : List ℕ) : LDTypeDeclaration × LinkedArena :=
  let added := decl.ctrArgs.add (before.foldl LinkedArena.extend arena) value
  ({ decl with ctrArgs := added.1 }, added.2)

def removeTypeDeclaration (decl : LDTypeDeclaration) (idx : ℕ) : LDTypeDeclaration × Bool :=
  let removed := decl.typeParams.remove idx
  ({ decl with typeParams := removed.1 }, removed.2)

def removeConstructorArg (decl : LDTypeDeclaration) (idx : ℕ) : LDTypeDeclaration × Bool :=
  let removed := decl.ctrArgs.remove idx
  ({ decl with ctrArgs := removed.1 }, removed.2)

inductive EditOp
  | addTypeDeclaration (value : ℕ) (before : List ℕ)
  | addConstructorArg (value : ℕ) (before : List ℕ)
  | removeTypeDeclaration (idx : ℕ)
  | removeConstructorArg (idx : ℕ)

structure EditSession where
  decl : LDTypeDeclaration
  arena : LinkedArena
  params : List ℕ
  args : List ℕ
  thrown : Bool
  refused : Bool

namespace EditSession

def step (session : EditSession) : EditOp → Option EditSession
  | .addTypeDeclaration value before =>
      let added := session.decl.addTypeDeclaration session.arena value before
      some ⟨added.1, added.2, session.params ++ [value], session.args, false, false⟩
  | .addConstructorArg value before =>
      let added := session.decl.addConstructorArg session.arena value before
      some ⟨added.1, added.2, session.params, session.args ++ [value], false, false⟩
  | .removeTypeDeclaration idx =>
      let removed := session.decl.removeTypeDeclaration idx
      some ⟨removed.1, session.arena, session.params.eraseIdx idx, session.args, removed.2,
        decide (session.params.length ≤ idx)⟩
  | .removeConstructorArg idx =>
      let removed := session.decl.removeConstructorArg idx
      some ⟨removed.1, session.arena, session.params, session.args.eraseIdx idx, removed.2,
        decide (session.args.length ≤ idx)⟩

structure Right (session : EditSession) : Prop where
  params_eq : session.decl.params = session.params.length
  getTypeDeclaration_eq : ∀ idx, session.decl.getTypeDeclaration idx = session.params[idx]?
  constructorArgs_eq : session.decl.constructorArgs = session.args.length
  getConstructorArg_eq : ∀ idx, session.decl.getConstructorArg idx = session.args[idx]?
  thrown_eq : session.thrown = session.refused

def FirstFits (field : DeclField) (arena : LinkedArena) (before : List ℕ) : Prop :=
  let extended := before.foldl LinkedArena.extend arena
  field = none → ¬ extended.Moves (extended.vectorBytes 1)

def StepSound (session : EditSession) : EditOp → Prop
  | .addTypeDeclaration _ before => FirstFits session.decl.typeParams session.arena before
  | .addConstructorArg _ before => FirstFits session.decl.ctrArgs session.arena before
  | .removeTypeDeclaration idx => session.decl.params ≤ idx
  | .removeConstructorArg idx => session.decl.constructorArgs ≤ idx

end EditSession

end LDTypeDeclaration

end Memoria

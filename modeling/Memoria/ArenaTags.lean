import Memoria.ArenaBuffer
import Memoria.Lib.Limbs
import Memoria.LinkedTypeDecl

/-!
# Tagged objects in an arena

A `LinkedArena` hands out aligned space in an arena buffer, with room for a tag below each object. A
tag is one byte for the type hash codes below 250 and eight bytes, the lowest first, for the others.
A read or a write outside the block gives `none`. Addresses are numbers: they are `uint64_t` or
`size_t` in the source, and the arena with the space that is asked for is taken to be smaller.
-/

namespace Memoria.LDArena

open Lib

structure Request where
  size : ℕ
  alignment : ℕ
  tagSize : ℕ
  alignment_eq : ∃ k, alignment = 2 ^ k

def addPadding (alignment tagSize addr upsize : ℕ) : ℕ × ℕ :=
  if _ : 0 < alignment ∧ upsize < tagSize then
    addPadding alignment tagSize (addr + alignment) (upsize + alignment)
  else (addr, upsize)
termination_by tagSize - upsize

section Allocation

variable (memory : ℕ → BitVec 8)

def create (initialArenaSize : ℕ) (header : List (BitVec 8)) :
    Option (ArenaBuffer (BitVec 8)) := do
  let arena : ArenaBuffer (BitVec 8) :=
    ⟨allocateBuffer memory initialArenaSize, initialArenaSize, 0⟩
  let arena ← arena.ensure memory header.length
  let block ← storeBuffer arena.block 0 header
  some { arena.addSize header.length with block := block }

def allocateSpace (request : Request) (arena : ArenaBuffer (BitVec 8)) :
    Option (ℕ × ArenaBuffer (BitVec 8)) := do
  let aligned := LinkedArena.alignUp arena.size request.alignment
  let padded := addPadding request.alignment request.tagSize aligned (aligned - arena.size)
  let arena ← arena.ensure memory (padded.2 + request.size)
  some (padded.1, arena.addSize (padded.2 + request.size))

end Allocation

def longTag (code : BitVec 64) : BitVec 64 :=
  (code &&& 0xFFFFFFFFFFFFFF#64) ||| (250#64 <<< 56)

def tagSize (code : BitVec 64) : ℕ := if code < 250#64 then 1 else 8

def tagValue (code : BitVec 64) : BitVec 64 := if code < 250#64 then code else longTag code

def loadBelow (arena : ArenaBuffer (BitVec 8)) (ptr size : ℕ) : Option (List (BitVec 8)) :=
  if size ≤ ptr then loadBuffer arena.block (ptr - size) size else none

def storeBelow (arena : ArenaBuffer (BitVec 8)) (ptr : ℕ) (bytes : List (BitVec 8)) :
    Option (ArenaBuffer (BitVec 8)) :=
  if bytes.length ≤ ptr then
    (storeBuffer arena.block (ptr - bytes.length) bytes).map fun block =>
      { arena with block := block }
  else none

def wordBytes (word : BitVec 64) : List (BitVec 8) :=
  (List.range 8).map fun i => word.extractLsb' (8 * i) 8

def ofWordBytes (bytes : List (BitVec 8)) : BitVec 64 :=
  BitVec.ofNat 64 (limbsNumber (fun i => bytes.getD i 0#8) 8)

def setTag (ptr : ℕ) (tag : BitVec 64) (arena : ArenaBuffer (BitVec 8)) :
    Option (ArenaBuffer (BitVec 8)) :=
  if tag < 250#64 then storeBelow arena ptr [tag.setWidth 8]
  else storeBelow arena ptr (wordBytes (longTag tag))

def getTag (arena : ArenaBuffer (BitVec 8)) (ptr : ℕ) : Option (BitVec 64) := do
  let short ← loadBelow arena ptr 1
  let shortValue := short.getD 0 0#8
  if shortValue < 250#8 then some (shortValue.setWidth 64)
  else do
    let long ← loadBelow arena ptr 8
    some (ofWordBytes long &&& 0xFFFFFFFFFFFFFF#64)

def assertTag (arena : ArenaBuffer (BitVec 8)) (code : BitVec 64) (ptr : ℕ) : Option Bool :=
  (getTag arena ptr).map fun tag => decide (tag = tagValue code)

structure LDObject where
  addr : ℕ
  request : Request
  code : Option (BitVec 64)
  content : List (BitVec 8)

namespace LDObject

def start (object : LDObject) : ℕ := object.addr - object.request.tagSize

def stop (object : LDObject) : ℕ := object.addr + object.request.size

end LDObject

structure ArenaSession where
  arena : ArenaBuffer (BitVec 8)
  objects : List LDObject

inductive ArenaOp where
  | allocate (request : Request)
  | setTag (i : ℕ) (code : BitVec 64)
  | write (i : ℕ) (content : List (BitVec 8))

/-- The tag of an object is set that has `ld_tag_size` bytes for it, and it is written whole. -/
def ArenaOp.promised (session : ArenaSession) : ArenaOp → Bool
  | .allocate _ => true
  | .setTag i code => session.objects[i]?.any fun object =>
      decide (object.request.tagSize = tagSize code)
  | .write i content => session.objects[i]?.any fun object =>
      decide (content.length = object.request.size)

def step (memory : ℕ → BitVec 8) (session : ArenaSession) (op : ArenaOp) : Option ArenaSession :=
  if op.promised session then
    match op with
    | .allocate request =>
        (allocateSpace memory request session.arena).map fun (addr, arena) =>
          ⟨arena, session.objects ++
            [⟨addr, request, none, (arena.block.drop addr).take request.size⟩]⟩
    | .setTag i code => session.objects[i]?.bind fun object =>
        (setTag object.addr (tagValue code) session.arena).map fun arena =>
          ⟨arena, session.objects.set i { object with code := some code }⟩
    | .write i content => session.objects[i]?.bind fun object =>
        (storeBuffer session.arena.block object.addr content).map fun block =>
          ⟨{ session.arena with block := block },
            session.objects.set i { object with content := content }⟩
  else none

def tagBytes (tag : BitVec 64) : List (BitVec 8) :=
  if tag < 250#64 then [tag.setWidth 8] else wordBytes (longTag tag)

structure Placed (header : List (BitVec 8)) (arena : ArenaBuffer (BitVec 8)) (object : LDObject) :
    Prop where
  aligned : object.request.alignment ∣ object.addr
  tag_le : object.request.tagSize ≤ object.addr
  le_start : header.length ≤ object.start
  stop_le : object.stop ≤ arena.size
  content_eq : (arena.block.drop object.addr).take object.request.size = object.content
  tag_eq : ∀ code, object.code = some code → object.request.tagSize = tagSize code ∧
    (arena.block.drop object.start).take object.request.tagSize = tagBytes (tagValue code)

structure Laid (header : List (BitVec 8)) (session : ArenaSession) : Prop where
  header_eq : session.arena.block.take header.length = header
  placed : ∀ object ∈ session.objects, Placed header session.arena object
  disjoint : session.objects.Pairwise fun a b => a.stop ≤ b.start ∨ b.stop ≤ a.start

/-- The tag of every object that has one is read as it was set, and `ldd_assert_tag` accepts it. -/
def TagsRead (session : ArenaSession) : Prop :=
  ∀ object ∈ session.objects, ∀ code, object.code = some code →
    getTag session.arena object.addr = some (tagValue code) ∧
      assertTag session.arena code object.addr = some true

def ArenaOp.Short : ArenaOp → Prop
  | .setTag _ code => code < 250#64
  | _ => True

end Memoria.LDArena

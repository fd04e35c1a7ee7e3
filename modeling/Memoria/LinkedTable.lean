import Mathlib.Algebra.Ring.Nat
import Mathlib.Data.List.Basic
import Mathlib.Data.Nat.Notation
import Mathlib.Logic.Function.Basic
import Mathlib.Order.Lattice

/-!
# `LinkedMap` and `LinkedSet`

Hash tables in an arena: an array of pointers to buckets, each a vector with a capacity. The two
classes are the same code over different entries, so there is one definition here, and a `Layout`
says what an entry is, what `put` does to an entry it finds, and whether `get` looks at the size
before it reads the array. A null array pointer is `none`; reading through it has no meaning. Sizes
are numbers: the `uint32_t` of the source is enough for tables of less than 2 ^ 30 slots.
-/

namespace Memoria

structure Bucket (Entry : Type) where
  capacity : ℕ
  data : List Entry

namespace Bucket

variable {Entry : Type}

def pushBack (bucket : Bucket Entry) (entry : Entry) : Option (Bucket Entry) :=
  if bucket.data.length + 1 ≤ bucket.capacity then
    some { bucket with data := bucket.data ++ [entry] }
  else none

def copyTo (bucket dst : Bucket Entry) : Bucket Entry :=
  { dst with data := bucket.data }

def remove (bucket : Bucket Entry) (idx : ℕ) : Bucket Entry :=
  { bucket with data := bucket.data.eraseIdx idx }

def clear (bucket : Bucket Entry) : Bucket Entry :=
  { bucket with data := [] }

end Bucket

structure BucketArena (Entry : Type) where
  buckets : ℕ → Bucket Entry
  top : ℕ

namespace BucketArena

variable {Entry : Type}

def allocate (arena : BucketArena Entry) (bucket : Bucket Entry) : BucketArena Entry :=
  ⟨Function.update arena.buckets arena.top bucket, arena.top + 1⟩

def set (arena : BucketArena Entry) (ptr : ℕ) (bucket : Bucket Entry) : BucketArena Entry :=
  { arena with buckets := Function.update arena.buckets ptr bucket }

end BucketArena

structure Layout (Key Entry : Type) where
  key : Entry → Key
  overwrite : Entry → Entry → Entry
  guarded : Bool
  overwrite_eq : ∀ old new, key old = key new → overwrite old new = new

def LinkedMap (Key Value : Type) : Layout Key (Key × Value) where
  key := Prod.fst
  overwrite := fun old new => (old.1, new.2)
  guarded := false
  overwrite_eq := fun _ _ h => Prod.ext h rfl

def LinkedSet (Key : Type) : Layout Key Key where
  key := id
  overwrite := fun old _ => old
  guarded := true
  overwrite_eq := fun _ _ h => h

structure LinkedTable (Entry : Type) where
  arena : BucketArena Entry
  size : ℕ
  array : Option (List (Option ℕ))

namespace LinkedTable

variable {Key Entry : Type} [DecidableEq Key] (layout : Layout Key Entry) (hash : Key → ℕ)

def arraySlot (array : List (Option ℕ)) (key : Key) : ℕ :=
  hash key &&& (array.length - 1)

def locate (bucket : Bucket Entry) (key : Key) : Option ℕ :=
  bucket.data.findIdx? fun entry => decide (key = layout.key entry)

def newBucket (arena : BucketArena Entry) (cache : Option (List ℕ)) :
    ℕ × BucketArena Entry × Option (List ℕ) :=
  match cache with
  | some (front :: rest) => (front, arena, some rest)
  | _ => (arena.top, arena.allocate ⟨1, []⟩, cache)

def enlargeBucket (arena : BucketArena Entry) (bucket : ℕ) : ℕ × BucketArena Entry :=
  let new_bucket : Bucket Entry := ⟨(arena.buckets bucket).capacity * 2, []⟩
  (arena.top, arena.allocate ((arena.buckets bucket).copyTo new_bucket))

/-- A bucket with the entries of a full one: the first one of the cache if it is larger, or else a
new one of twice the capacity. -/
def growBucket (arena : BucketArena Entry) (bucket : ℕ) (cache : Option (List ℕ)) :
    ℕ × BucketArena Entry × Option (List ℕ) :=
  match cache with
  | some (front :: rest) =>
      if (arena.buckets front).capacity > (arena.buckets bucket).capacity then
        (front, arena.set front ((arena.buckets bucket).copyTo (arena.buckets front)), some rest)
      else
        let new_bucket := enlargeBucket arena bucket
        (new_bucket.1, new_bucket.2, cache)
  | _ =>
      let new_bucket := enlargeBucket arena bucket
      (new_bucket.1, new_bucket.2, cache)

def placeBucket (array : List (Option ℕ)) (slot : ℕ) (entry : Entry)
    (new_bucket : ℕ × BucketArena Entry × Option (List ℕ)) :
    BucketArena Entry × List (Option ℕ) × Option (List ℕ) :=
  let bucket := new_bucket.2.1.buckets new_bucket.1
  (new_bucket.2.1.set new_bucket.1 ((bucket.pushBack entry).getD bucket),
    array.set slot (some new_bucket.1), new_bucket.2.2)

/-- `put_to`. `cache` is `buffer_cache`, `none` where the code passes a null pointer. -/
def putTo (arena : BucketArena Entry) (array : List (Option ℕ)) (entry : Entry)
    (cache : Option (List ℕ)) : BucketArena Entry × List (Option ℕ) × Option (List ℕ) :=
  let slot := arraySlot hash array (layout.key entry)
  match array.getD slot none with
  | none => placeBucket array slot entry (newBucket arena cache)
  | some bucket =>
      match locate layout (arena.buckets bucket) (layout.key entry) with
      | some idx =>
          let data := (arena.buckets bucket).data.modify idx fun old => layout.overwrite old entry
          (arena.set bucket { arena.buckets bucket with data }, array, cache)
      | none =>
          match (arena.buckets bucket).pushBack entry with
          | some pushed => (arena.set bucket pushed, array, cache)
          | none => placeBucket array slot entry (growBucket arena bucket cache)

/-- The entries of one old bucket go to the new array; then the bucket is cleared and cached. -/
def rehashBucket (state : BucketArena Entry × List (Option ℕ) × List ℕ) :
    Option ℕ → BucketArena Entry × List (Option ℕ) × List ℕ
  | none => state
  | some bucket =>
      let tmp_bucket := (state.1.buckets bucket).data
      let out := tmp_bucket.foldl (fun state entry =>
        putTo layout hash state.1 state.2.1 entry state.2.2) (state.1, state.2.1, some state.2.2)
      (out.1.set bucket (out.1.buckets bucket).clear, out.2.1, out.2.2.getD [] ++ [bucket])

def rehash (arena : BucketArena Entry) (array : List (Option ℕ)) (new_size : ℕ) :
    BucketArena Entry × List (Option ℕ) :=
  let out := array.foldl (rehashBucket layout hash) (arena, List.replicate new_size none, [])
  (out.1, out.2.1)

def create : LinkedTable Entry :=
  ⟨⟨fun _ => ⟨0, []⟩, 0⟩, 0, none⟩

def put (table : LinkedTable Entry) (entry : Entry) : LinkedTable Entry :=
  -- `ensure_array_exists`: an array of one null pointer
  let array := table.array.getD [none]
  let out := putTo layout hash table.arena array entry none
  let size := table.size
  if size > 0 ∧ size > out.2.1.length * 3 / 4 then
    let rehashed := rehash layout hash out.1 out.2.1 (out.2.1.length * 2)
    ⟨rehashed.1, size + 1, some rehashed.2⟩
  else ⟨out.1, size + 1, some out.2.1⟩

/-- The entry `get` finds; `none` where it reads through a null pointer. -/
def get (table : LinkedTable Entry) (key : Key) : Option (Option Entry) :=
  if layout.guarded ∧ table.size = 0 then some none
  else
    match table.array with
    | none => none
    | some array => some <|
        match array.getD (arraySlot hash array key) none with
        | none => none
        | some bucket =>
            (locate layout (table.arena.buckets bucket) key).bind fun idx =>
              (table.arena.buckets bucket).data[idx]?

def removeAt (table : LinkedTable Entry) (array : List (Option ℕ)) (slot bucket idx : ℕ) :
    LinkedTable Entry :=
  let pbucket := (table.arena.buckets bucket).remove idx
  let arena := table.arena.set bucket pbucket
  let array := if pbucket.data.length = 0 then array.set slot none else array
  let size := table.size - 1
  if size > 0 then
    if size ≤ array.length / 4 then
      let rehashed := rehash layout hash arena array (array.length / 2)
      ⟨rehashed.1, size, some rehashed.2⟩
    else ⟨arena, size, some array⟩
  else ⟨arena, size, none⟩

def remove (table : LinkedTable Entry) (key : Key) : Bool × LinkedTable Entry :=
  match table.array with
  | none => (false, table)
  | some array =>
      let slot := arraySlot hash array key
      match array.getD slot none with
      | none => (false, table)
      | some bucket =>
          match locate layout (table.arena.buckets bucket) key with
          | none => (false, table)
          | some idx => (true, removeAt layout hash table array slot bucket idx)

def forEach (table : LinkedTable Entry) : List Entry :=
  match table.array with
  | none => []
  | some array => array.flatMap fun value =>
      match value with
      | none => []
      | some bucket => (table.arena.buckets bucket).data

def copyBuckets (arena : BucketArena Entry) :
    List (Option ℕ) → BucketArena Entry → List (Option ℕ) × BucketArena Entry
  | [], dst => ([], dst)
  | none :: values, dst =>
      let out := copyBuckets arena values dst
      (none :: out.1, out.2)
  | some bucket :: values, dst =>
      let data := (arena.buckets bucket).data
      let out := copyBuckets arena values (dst.allocate ⟨data.length, data⟩)
      (some dst.top :: out.1, out.2)

/-- `deep_copy_to`, to an arena that may hold other buckets. A copied key or value has the content,
and so the hash, of the original. -/
def deepCopyTo (table : LinkedTable Entry) (dst : BucketArena Entry) : LinkedTable Entry :=
  match table.array with
  | none => ⟨dst, 0, none⟩
  | some array =>
      let out := copyBuckets table.arena array dst
      ⟨out.2, table.size, some out.1⟩

inductive Op (Key Entry : Type) where
  | put (entry : Entry)
  | remove (key : Key)
  | get (key : Key)
  /-- The run goes on with a copy of the table. -/
  | deepCopyTo (dst : BucketArena Entry)

structure Session (Key Entry : Type) where
  table : LinkedTable Entry
  content : Key → Option Entry

def start : Session Key Entry :=
  ⟨create, fun _ => none⟩

def step (session : Session Key Entry) : Op Key Entry → Option (Session Key Entry)
  | .put entry => some ⟨put layout hash session.table entry,
      Function.update session.content (layout.key entry) (some entry)⟩
  | .remove key => some ⟨(remove layout hash session.table key).2,
      Function.update session.content key none⟩
  | .get key => if (get layout hash session.table key).isSome then some session else none
  | .deepCopyTo dst => some ⟨deepCopyTo session.table dst, session.content⟩

/-- The table is the finite map: `for_each` visits the entries of the map, each key once, the size
is their number, the array has a power of two of slots, and each entry is in the slot of its key. -/
structure Refines (session : Session Key Entry) : Prop where
  nodup : ((forEach session.table).map layout.key).Nodup
  content : ∀ entry, entry ∈ forEach session.table ↔
    session.content (layout.key entry) = some entry
  size : session.table.size = (forEach session.table).length
  pow : ∀ array, session.table.array = some array → ∃ k, array.length = 2 ^ k
  slot : ∀ array, session.table.array = some array → ∀ s bucket,
    array.getD s none = some bucket → ∀ entry ∈ (session.table.arena.buckets bucket).data,
      arraySlot hash array (layout.key entry) = s

def Outcome (session : Session Key Entry) : Op Key Entry → Prop
  | .get key => get layout hash session.table key = some (session.content key)
  | .remove key => (remove layout hash session.table key).1 = (session.content key).isSome
  | _ => True

/-- `put` is of a key that the table does not have, and `get` of a `LinkedMap` is not called on an
empty one. -/
def StepOk (session : Session Key Entry) : Op Key Entry → Prop
  | .put entry => ∀ old ∈ forEach session.table, layout.key old ≠ layout.key entry
  | .get _ => layout.guarded = true ∨ forEach session.table ≠ []
  | _ => True

end LinkedTable

end Memoria

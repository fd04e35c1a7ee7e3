import Mathlib.Data.List.AList
import Mathlib.Logic.Function.Basic

/-!
# Block reference counters of a SWMR writable commit

The counter of a block is stored in the counters container, kept in the cache of the commit, or in
neither. `ref_block` and `unref_block` update the container through `with_value`, and while the
container changes its own blocks it makes further calls of the two, with `refcounter_update_mode_`
set. So a run is a sequence of calls together with the points where an update of the container that
is under way stores its value and where it returns. The container itself is a finite map here.
-/

namespace Memoria.RefCounters

variable {Id : Type} [DecidableEq Id]

/-- An update of the container under way: `value` is what it stores for `id` (`none`: the key is
removed), `zero` says that the caller caches a zero afterwards, and `resets` that it leaves
`refcounter_update_mode_` cleared. -/
structure Update (Id : Type) where
  id : Id
  value : Option ℤ
  resets : Bool
  zero : Bool
  written : Bool
deriving DecidableEq

/-- The part of `MappedSWMRStoreWritableCommit` the counters are kept in. `opened` says that
`refcounters_ctr_` is set, `pending` is the local `counters_cache` of the loop in `commit`, and
`updates` are the calls of `with_value`, `assign_key` and `remove_key` that have not returned. -/
structure Commit (Id : Type) where
  refcounters : Id → Option ℤ
  opened : Bool
  updateMode : Bool
  countersCache : AList fun _ : Id => ℤ
  pending : AList fun _ : Id => ℤ
  updates : List (Update Id)

namespace Commit

def internalRefCounterCache (commit : Commit Id) (id : Id) (amount : ℤ) : Commit Id :=
  match commit.countersCache.lookup id with
  | some value => { commit with countersCache := commit.countersCache.insert id (value + amount) }
  | none => { commit with countersCache := commit.countersCache.insert id amount }

/-- `internal_unref_counter_cache`: the answer, with the commit after it, where there is an entry. -/
def internalUnrefCounterCache (commit : Commit Id) (id : Id) : Option (Bool × Commit Id) :=
  match commit.countersCache.lookup id with
  | some value =>
      let res := value - 1
      some (res = 0, { commit with countersCache := commit.countersCache.insert id res })
  | none => none

def begin (commit : Commit Id) (update : Update Id) : Commit Id :=
  { commit with updates := update :: commit.updates }

def internalTryRefBlock (commit : Commit Id) (id : Id) (amount : ℤ) : Bool × Commit Id :=
  match commit.refcounters id with
  | some value => (true, commit.begin ⟨id, some (value + amount), false, false, false⟩)
  | none => (false, commit)

def internalRefBlock (commit : Commit Id) (id : Id) (amount : ℤ) : Commit Id :=
  let commit := { commit with updateMode := true }
  match commit.refcounters id with
  | some value => commit.begin ⟨id, some (value + amount), true, false, false⟩
  | none => commit.begin ⟨id, some 1, true, false, false⟩

/-- `internal_unref_block`, `none` where it returns an error. With `delete_on_zero` unset its only
caller caches a zero once it has returned zero. -/
def internalUnrefBlock (commit : Commit Id) (id : Id) (deleteOnZero : Bool) :
    Option (Bool × Commit Id) :=
  let commit := { commit with updateMode := true }
  match commit.refcounters id with
  | some value =>
      let counterValue := value - 1
      let stored := if counterValue = 0 ∧ deleteOnZero then none else some counterValue
      if counterValue < 0 then none
      else some (counterValue = 0, commit.begin
        ⟨id, stored, true, counterValue = 0 ∧ ¬ deleteOnZero, false⟩)
  | none => none

def refBlock (commit : Commit Id) (id : Id) (amount : ℤ) : Commit Id :=
  if !commit.opened then commit.internalRefCounterCache id amount
  else if !commit.updateMode then commit.internalRefBlock id amount
  else
    match commit.internalTryRefBlock id amount with
    | (true, commit) => commit
    | (false, commit) => commit.internalRefCounterCache id amount

/-- `unref_block`: whether the block is to be removed, `none` where it fails. -/
def unrefBlock (commit : Commit Id) (id : Id) : Option (Bool × Commit Id) :=
  match commit.internalUnrefCounterCache id with
  | some out => some out
  | none =>
      -- without `refcounters_ctr_` the first branch of the code reads a null pointer
      if !commit.updateMode then
        if commit.opened then commit.internalUnrefBlock id true else none
      else if commit.opened then commit.internalUnrefBlock id false
      else none

def write (commit : Commit Id) : Option (Commit Id) :=
  match commit.updates with
  | [] => none
  | update :: updates =>
      if update.written then none
      else some { commit with
        refcounters := Function.update commit.refcounters update.id update.value
        updates := { update with written := true } :: updates }

def return' (commit : Commit Id) : Option (Commit Id) :=
  match commit.updates with
  | [] => none
  | update :: updates =>
      if update.written then some { commit with
        updateMode := commit.updateMode && !update.resets
        countersCache :=
          if update.zero then commit.countersCache.insert update.id 0 else commit.countersCache
        updates := updates }
      else none

def flushRound (commit : Commit Id) : Option (Commit Id) :=
  if commit.pending.entries = [] ∧ commit.updates = [] then
    some { commit with pending := commit.countersCache, countersCache := ∅ }
  else none

/-- `internal_update_counters_entry` for one entry of the local cache, which is a hash map: any
entry may come next. -/
def internalUpdateCountersEntry (commit : Commit Id) (id : Id) : Option (Commit Id) :=
  match commit.updates, commit.pending.lookup id with
  | [], some refsValue =>
      let commit := { commit with pending := commit.pending.erase id }
      -- without `refcounters_ctr_` both calls go through a null pointer
      if !commit.opened then none
      else if refsValue > 0 then some (commit.begin ⟨id, some refsValue, false, false, false⟩)
      else if refsValue = 0 then some (commit.begin ⟨id, none, false, false, false⟩)
      else none
  | _, _ => none

end Commit

inductive Op (Id : Type) where
  | refBlock (id : Id) (amount : ℕ)
  | unrefBlock (id : Id)
  /-- `refcounters_ctr_` is set. -/
  | openCounters
  | write
  | return'
  | flushRound
  | flushEntry (id : Id)
deriving DecidableEq

structure Session (Id : Type) where
  commit : Commit Id
  ledger : Id → ℤ

def Session.start (stored : Id → Option ℤ) (opened : Bool) : Session Id where
  commit := ⟨stored, opened, false, ∅, ∅, []⟩
  ledger := fun id => (stored id).getD 0

def step (session : Session Id) : Op Id → Option (Session Id)
  | .refBlock id amount => some
      ⟨session.commit.refBlock id amount,
        Function.update session.ledger id (session.ledger id + amount)⟩
  | .unrefBlock id => (session.commit.unrefBlock id).map fun out =>
      ⟨out.2, Function.update session.ledger id (session.ledger id - 1)⟩
  | .openCounters => some { session with commit := { session.commit with opened := true } }
  | .write => session.commit.write.map fun commit => { session with commit }
  | .return' => session.commit.return'.map fun commit => { session with commit }
  | .flushRound => session.commit.flushRound.map fun commit => { session with commit }
  | .flushEntry id => (session.commit.internalUpdateCountersEntry id).map fun commit =>
      { session with commit }

def Commit.Flushed (commit : Commit Id) : Prop :=
  commit.countersCache.entries = [] ∧ commit.pending.entries = [] ∧ commit.updates = []

def Settled (session : Session Id) : Prop :=
  session.commit.Flushed → ∀ id, (session.commit.refcounters id).getD 0 = session.ledger id

/-- An unref reports that the block is to be removed exactly if its counter is then zero. It gives
an answer where the counter is positive, and the flush can store every counter that is not negative. -/
def Reported (session : Session Id) : Op Id → Prop
  | .unrefBlock id =>
      (∀ out, session.commit.unrefBlock id = some out →
        (out.1 = true ↔ session.ledger id - 1 = 0)) ∧
      (0 < session.ledger id → session.commit.unrefBlock id ≠ none)
  | .flushEntry id => session.commit.updates = [] → id ∈ session.commit.pending →
      0 ≤ session.ledger id → session.commit.internalUpdateCountersEntry id ≠ none
  | _ => True

def Update.owes (update : Update Id) : Bool :=
  !update.written || update.zero

def Commit.Idle (commit : Commit Id) (id : Id) : Prop :=
  (∀ update ∈ commit.updates, update.owes → update.id ≠ id) ∧ id ∉ commit.pending

def Commit.CachesRef (commit : Commit Id) (id : Id) : Prop :=
  commit.opened = false ∨ (commit.updateMode = true ∧ commit.refcounters id = none)

/-- A counter that is cached is not changed in the container, one that is stored is not cached, and
a counter that the container does not have is referenced there by one. -/
def RefOk (commit : Commit Id) (id : Id) (amount : ℕ) : Prop :=
  (commit.CachesRef id ∧ (id ∈ commit.countersCache ∨ commit.refcounters id = none)) ∨
    (¬ commit.CachesRef id ∧ id ∉ commit.countersCache ∧
      (commit.refcounters id ≠ none ∨ amount = 1))

def UnrefOk (commit : Commit Id) (id : Id) : Prop :=
  id ∈ commit.countersCache ∨ commit.opened = true

def StepOk (session : Session Id) : Op Id → Prop
  | .refBlock id amount => session.commit.Idle id ∧ RefOk session.commit id amount
  | .unrefBlock id => session.commit.Idle id ∧ UnrefOk session.commit id
  | .flushEntry _ => session.commit.opened = true
  | _ => True

instance (commit : Commit Id) (id : Id) : Decidable (commit.Idle id) :=
  inferInstanceAs (Decidable (_ ∧ _))

instance (commit : Commit Id) (id : Id) : Decidable (commit.CachesRef id) :=
  inferInstanceAs (Decidable (_ ∨ _))

instance (commit : Commit Id) (id : Id) (amount : ℕ) : Decidable (RefOk commit id amount) :=
  inferInstanceAs (Decidable (_ ∨ _))

instance (commit : Commit Id) (id : Id) : Decidable (UnrefOk commit id) :=
  inferInstanceAs (Decidable (_ ∨ _))

instance (session : Session Id) : ∀ op, Decidable (StepOk session op)
  | .refBlock .. | .unrefBlock .. => inferInstanceAs (Decidable (_ ∧ _))
  | .flushEntry _ => inferInstanceAs (Decidable (_ = true))
  | .openCounters | .write | .return' | .flushRound => inferInstanceAs (Decidable True)

end Memoria.RefCounters

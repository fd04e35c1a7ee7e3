import Memoria.Lib.Run
import Memoria.RefCounters

/-!
# When the stored reference counters are those of the ledger

The counter of a block is in one of four places: an update under way, the local cache of a flush,
the cache of the commit, or the container. `Commit.counter` reads them in that order. The invariant
says that it agrees with the ledger, and that the places do not overlap where an update is still to
change one of them.
-/

namespace Memoria.RefCounters

open Lib

variable {Id : Type} [DecidableEq Id]

namespace Commit

def owed (updates : List (Update Id)) (id : Id) : Option ℤ :=
  (updates.find? fun update => update.owes && decide (update.id = id)).map (·.value.getD 0)

def counter (commit : Commit Id) (id : Id) : ℤ :=
  ((owed commit.updates id).or ((commit.pending.lookup id).or
    ((commit.countersCache.lookup id).or (commit.refcounters id)))).getD 0

variable {commit : Commit Id} {id other : Id} {update : Update Id} {updates : List (Update Id)}

@[simp] theorem owed_nil : owed ([] : List (Update Id)) id = none := rfl

theorem owed_cons_self (howes : update.owes) :
    owed (update :: updates) update.id = some (update.value.getD 0) := by
  simp [owed, howes]

theorem owed_cons_of_ne (hne : update.id ≠ id) : owed (update :: updates) id = owed updates id := by
  simp [owed, hne]

theorem owed_cons_of_not_owes (howes : update.owes = false) :
    owed (update :: updates) id = owed updates id := by
  simp [owed, howes]

theorem owed_eq_none (h : ∀ update ∈ updates, update.owes → update.id ≠ id) :
    owed updates id = none := by
  simp only [owed, Option.map_eq_none_iff, List.find?_eq_none]
  intro update hmem
  simpa using h update hmem

theorem Idle.owed (h : commit.Idle id) : owed commit.updates id = none :=
  owed_eq_none h.1

theorem Idle.pending (h : commit.Idle id) : commit.pending.lookup id = none :=
  AList.lookup_eq_none.mpr h.2

theorem Idle.counter (h : commit.Idle id) :
    commit.counter id = ((commit.countersCache.lookup id).or (commit.refcounters id)).getD 0 := by
  simp [Commit.counter, h.owed, h.pending]

end Commit

open Commit

structure Inv (session : Session Id) : Prop where
  counter : ∀ id, session.commit.counter id = session.ledger id
  alone : ∀ update ∈ session.commit.updates, update.owes →
    update.id ∉ session.commit.countersCache ∧ update.id ∉ session.commit.pending
  distinct : (session.commit.updates.filter (·.owes)).Pairwise fun a b => a.id ≠ b.id
  pending : ∀ id ∈ session.commit.pending, id ∉ session.commit.countersCache
  zero : ∀ update ∈ session.commit.updates, update.zero → update.value = some 0

theorem inv_start (stored : Id → Option ℤ) (opened : Bool) : Inv (Session.start stored opened) where
  counter := fun _ => rfl
  alone := fun _ hmem => absurd hmem List.not_mem_nil
  distinct := List.Pairwise.nil
  pending := fun _ hmem => absurd hmem (AList.notMem_empty _)
  zero := fun _ hmem => absurd hmem List.not_mem_nil

variable {session session' : Session Id} {id : Id}

/-- A call that gives the counter of `id` a new value in the cache. -/
theorem Inv.cache (h : Inv session) (hidle : session.commit.Idle id) (value : ℤ) :
    Inv ⟨{ session.commit with
        countersCache := session.commit.countersCache.insert id value },
      Function.update session.ledger id value⟩ where
  counter := by
    intro other
    by_cases heq : other = id
    · subst heq
      simp [Commit.counter, hidle.owed, hidle.pending]
    · have hother := h.counter other
      simp only [Commit.counter] at hother ⊢
      rw [AList.lookup_insert_ne heq, Function.update_of_ne heq]
      exact hother
  alone := by
    intro update hmem howes
    have hne := hidle.1 update hmem howes
    have halone := h.alone update hmem howes
    exact ⟨by simp [AList.mem_insert, hne, halone.1], halone.2⟩
  distinct := h.distinct
  pending := by
    intro other hmem
    have hne : other ≠ id := fun heq => hidle.2 (heq ▸ hmem)
    simp [AList.mem_insert, hne, h.pending other hmem]
  zero := h.zero

/-- An update that begins gives the counter of its block a new value. -/
theorem Inv.begin (h : Inv session) (update : Update Id) (hidle : session.commit.Idle update.id)
    (hcache : update.id ∉ session.commit.countersCache) (hnew : update.written = false)
    (hzero : update.zero → update.value = some 0) (mode : Bool) :
    Inv ⟨{ session.commit with updateMode := mode }.begin update,
      Function.update session.ledger update.id (update.value.getD 0)⟩ := by
  have howes : update.owes := by simp [Update.owes, hnew]
  refine ⟨?_, ?_, ?_, h.pending, ?_⟩
  · intro other
    by_cases heq : other = update.id
    · subst heq
      simp [Commit.counter, Commit.begin, owed_cons_self howes]
    · have hother := h.counter other
      simp only [Commit.counter, Commit.begin] at hother ⊢
      rw [owed_cons_of_ne (Ne.symm heq), Function.update_of_ne heq]
      exact hother
  · intro other hmem hother
    rcases List.mem_cons.mp hmem with rfl | hmem
    · exact ⟨hcache, hidle.2⟩
    · exact h.alone other hmem hother
  · simp only [Commit.begin, List.filter_cons_of_pos howes, List.pairwise_cons]
    refine ⟨?_, h.distinct⟩
    intro other hmem
    obtain ⟨hmem, hother⟩ := List.mem_filter.mp hmem
    exact Ne.symm (hidle.1 other hmem hother)
  · intro other hmem hother
    rcases List.mem_cons.mp hmem with rfl | hmem
    · exact hzero hother
    · exact h.zero other hmem hother

theorem Inv.refBlock (h : Inv session) {amount : ℕ} (hidle : session.commit.Idle id)
    (hok : RefOk session.commit id amount) :
    Inv ⟨session.commit.refBlock id amount,
      Function.update session.ledger id (session.ledger id + amount)⟩ := by
  have hledger := (h.counter id).symm.trans hidle.counter
  rcases hok with ⟨hcaches, hplace⟩ | ⟨hcaches, hcache, hplace⟩
  · have heq : session.commit.refBlock id amount =
        session.commit.internalRefCounterCache id amount := by
      rcases hcaches with hclosed | ⟨hmode, hnone⟩
      · simp [Commit.refBlock, hclosed]
      · simp [Commit.refBlock, hmode, internalTryRefBlock, hnone]
    rw [heq, internalRefCounterCache]
    cases hlookup : session.commit.countersCache.lookup id with
    | some value =>
        simp only [hlookup, Option.some_or, Option.getD_some] at hledger
        rw [hledger]
        exact h.cache hidle (value + amount)
    | none =>
        have hnone := hplace.resolve_left (AList.lookup_eq_none.mp hlookup)
        simp only [hlookup, hnone, Option.none_or, Option.getD_none] at hledger
        rw [hledger, Int.zero_add]
        exact h.cache hidle amount
  · have hlookup := AList.lookup_eq_none.mpr hcache
    simp only [hlookup, Option.none_or] at hledger
    simp only [CachesRef, not_or, not_and, Bool.not_eq_false] at hcaches
    obtain ⟨hopened, hmode⟩ := hcaches
    cases hstored : session.commit.refcounters id with
    | some value =>
        simp only [hstored, Option.getD_some] at hledger
        rw [hledger]
        cases hupdate : session.commit.updateMode with
        | false =>
            have hcode : session.commit.refBlock id amount =
                { session.commit with updateMode := true }.begin
                  ⟨id, some (value + amount), true, false, false⟩ := by
              simp [Commit.refBlock, hopened, hupdate, internalRefBlock, hstored]
            rw [hcode]
            exact h.begin ⟨id, some (value + amount), true, false, false⟩ hidle hcache rfl (by simp)
              true
        | true =>
            have hcode : session.commit.refBlock id amount =
                session.commit.begin ⟨id, some (value + amount), false, false, false⟩ := by
              simp [Commit.refBlock, hopened, hupdate, internalTryRefBlock, hstored]
            rw [hcode]
            exact h.begin ⟨id, some (value + amount), false, false, false⟩ hidle hcache rfl
              (by simp) session.commit.updateMode
    | none =>
        have hone := hplace.resolve_left (by simp [hstored])
        have hupdate : session.commit.updateMode = false := by
          by_contra hupdate
          exact hmode (by simpa using hupdate) hstored
        simp only [hstored, Option.getD_none] at hledger
        have hcode : session.commit.refBlock id amount =
            { session.commit with updateMode := true }.begin ⟨id, some 1, true, false, false⟩ := by
          simp [Commit.refBlock, hopened, hupdate, internalRefBlock, hstored]
        rw [hcode, hledger, hone]
        exact h.begin ⟨id, some 1, true, false, false⟩ hidle hcache rfl (by simp) true

/-- The answer of an unref, and the commit after it. -/
theorem Inv.unrefBlock (h : Inv session) (hidle : session.commit.Idle id)
    {out : Bool × Commit Id} (hout : session.commit.unrefBlock id = some out) :
    (out.1 = true ↔ session.ledger id - 1 = 0) ∧
      Inv ⟨out.2, Function.update session.ledger id (session.ledger id - 1)⟩ := by
  have hledger := (h.counter id).symm.trans hidle.counter
  cases hlookup : session.commit.countersCache.lookup id with
  | some value =>
      simp only [hlookup, Option.some_or, Option.getD_some] at hledger
      simp only [Commit.unrefBlock, internalUnrefCounterCache, hlookup, Option.some.injEq] at hout
      subst hout
      rw [hledger]
      exact ⟨by simp, h.cache hidle (value - 1)⟩
  | none =>
      have hcache := AList.lookup_eq_none.mp hlookup
      simp only [hlookup, Option.none_or] at hledger
      have hcode : ∃ delete, session.commit.internalUnrefBlock id delete = some out := by
        simp only [Commit.unrefBlock, internalUnrefCounterCache, hlookup] at hout
        split at hout
        · split at hout
          · exact ⟨true, hout⟩
          · exact absurd hout (by simp)
        · split at hout
          · exact ⟨false, hout⟩
          · exact absurd hout (by simp)
      obtain ⟨delete, hcode⟩ := hcode
      cases hstored : session.commit.refcounters id with
      | none => simp [internalUnrefBlock, hstored] at hcode
      | some value =>
          simp only [hstored, Option.getD_some] at hledger
          simp only [internalUnrefBlock, hstored, Option.ite_none_left_eq_some,
            Option.some.injEq] at hcode
          obtain ⟨-, rfl⟩ := hcode
          rw [hledger]
          refine ⟨by simp, ?_⟩
          have hvalue : (if value - 1 = 0 ∧ delete then none else some (value - 1)).getD 0 =
              value - 1 := by
            split
            · next hzero => exact hzero.1.symm
            · rfl
          have hbegin := h.begin ⟨id, if value - 1 = 0 ∧ delete then none else some (value - 1), true,
            decide (value - 1 = 0 ∧ ¬ delete), false⟩ hidle hcache rfl
            (by
              intro hzero
              obtain ⟨hzero, hdelete⟩ := of_decide_eq_true hzero
              simp [hzero, hdelete]) true
          rw [hvalue] at hbegin
          exact hbegin

/-- A counter that is positive is cached or stored. -/
theorem Inv.unrefBlock_ne_none (h : Inv session) (hidle : session.commit.Idle id)
    (hok : UnrefOk session.commit id) (hpos : 0 < session.ledger id) :
    session.commit.unrefBlock id ≠ none := by
  have hledger := (h.counter id).symm.trans hidle.counter
  cases hlookup : session.commit.countersCache.lookup id with
  | some value => simp [Commit.unrefBlock, internalUnrefCounterCache, hlookup]
  | none =>
      have hopened := hok.resolve_left (AList.lookup_eq_none.mp hlookup)
      cases hstored : session.commit.refcounters id with
      | none =>
          simp only [hlookup, hstored, Option.none_or, Option.getD_none] at hledger
          exact absurd hpos (by omega)
      | some value =>
          simp only [hlookup, hstored, Option.none_or, Option.getD_some] at hledger
          have hvalue : ¬ value - 1 < 0 := by omega
          have hanswer : ∀ delete, session.commit.internalUnrefBlock id delete ≠ none := by
            intro delete
            simp [internalUnrefBlock, hstored, hvalue]
          cases hmode : session.commit.updateMode with
          | false =>
              simpa [Commit.unrefBlock, internalUnrefCounterCache, hlookup, hopened, hmode] using
                hanswer true
          | true =>
              simpa [Commit.unrefBlock, internalUnrefCounterCache, hlookup, hopened, hmode] using
                hanswer false

theorem Inv.write (h : Inv session) {commit : Commit Id} (hout : session.commit.write = some commit) :
    Inv { session with commit } := by
  unfold Commit.write at hout
  split at hout
  · exact absurd hout (by simp)
  next update updates hupdates =>
  simp only [Option.ite_none_left_eq_some, Bool.not_eq_true, Option.some.injEq] at hout
  obtain ⟨hnew, rfl⟩ := hout
  have howes : update.owes := by simp [Update.owes, hnew]
  have halone := h.alone update (by simp [hupdates]) howes
  have hdistinct := h.distinct
  simp only [hupdates, List.filter_cons_of_pos howes, List.pairwise_cons] at hdistinct
  have hothers : owed updates update.id = none := by
    refine owed_eq_none fun other hmem hother => ?_
    exact Ne.symm (hdistinct.1 other (List.mem_filter.mpr ⟨hmem, hother⟩))
  -- only an update that leaves a zero to be cached still owes something
  have hself : owed ({ update with written := true } :: updates) update.id =
      if update.zero then some (update.value.getD 0) else none := by
    split
    · next hzero =>
        have howes' : ({ update with written := true } : Update Id).owes := by
          simp [Update.owes, hzero]
        exact owed_cons_self howes'
    · next hzero =>
        have howes' : ({ update with written := true } : Update Id).owes = false := by
          simpa [Update.owes] using hzero
        rw [owed_cons_of_not_owes howes', hothers]
  refine ⟨?_, ?_, ?_, h.pending, ?_⟩
  · intro id
    have hcounter := h.counter id
    simp only [Commit.counter, hupdates] at hcounter ⊢
    by_cases heq : update.id = id
    · subst heq
      rw [owed_cons_self howes] at hcounter
      rw [← hcounter]
      rw [hself]
      cases update.zero with
      | true => rfl
      | false =>
          simp [AList.lookup_eq_none.mpr halone.1, AList.lookup_eq_none.mpr halone.2]
    · rw [owed_cons_of_ne heq] at hcounter
      have hne : ({ update with written := true } : Update Id).id ≠ id := heq
      rw [owed_cons_of_ne hne, Function.update_of_ne (Ne.symm heq)]
      exact hcounter
  · intro other hmem hother
    rcases List.mem_cons.mp hmem with rfl | hmem
    · exact halone
    · exact h.alone other (by simp [hupdates, hmem]) hother
  · simp only [List.filter_cons]
    split
    · exact List.pairwise_cons.mpr hdistinct
    · exact hdistinct.2
  · intro other hmem hother
    rcases List.mem_cons.mp hmem with rfl | hmem
    · exact h.zero update (by simp [hupdates]) hother
    · exact h.zero other (by simp [hupdates, hmem]) hother

theorem Inv.return' (h : Inv session) {commit : Commit Id}
    (hout : session.commit.return' = some commit) : Inv { session with commit } := by
  unfold Commit.return' at hout
  split at hout
  · exact absurd hout (by simp)
  next update updates hupdates =>
  simp only [Option.ite_none_right_eq_some, Option.some.injEq] at hout
  obtain ⟨hwritten, rfl⟩ := hout
  have hdistinct := h.distinct
  simp only [hupdates] at hdistinct
  cases hzero : update.zero with
  | false =>
      have howes : update.owes = false := by simp [Update.owes, hwritten, hzero]
      refine ⟨?_, ?_, ?_, ?_, ?_⟩
      · intro id
        have hcounter := h.counter id
        simpa [Commit.counter, hupdates, owed_cons_of_not_owes howes] using hcounter
      · intro other hmem hother
        simpa using h.alone other (by simp [hupdates, hmem]) hother
      · simpa [List.filter_cons, howes] using hdistinct
      · simpa using h.pending
      · intro other hmem hother
        exact h.zero other (by simp [hupdates, hmem]) hother
  | true =>
      have howes : update.owes := by simp [Update.owes, hzero]
      have halone := h.alone update (by simp [hupdates]) howes
      have hvalue := h.zero update (by simp [hupdates]) hzero
      simp only [List.filter_cons_of_pos howes, List.pairwise_cons] at hdistinct
      have hne : ∀ other ∈ updates, other.owes → other.id ≠ update.id := fun other hmem hother =>
        Ne.symm (hdistinct.1 other (List.mem_filter.mpr ⟨hmem, hother⟩))
      refine ⟨?_, ?_, ?_, ?_, ?_⟩
      · intro id
        have hcounter := h.counter id
        simp only [Commit.counter, hupdates, if_true] at hcounter ⊢
        by_cases heq : update.id = id
        · subst heq
          rw [owed_cons_self howes, hvalue] at hcounter
          simp [← hcounter, owed_eq_none hne, AList.lookup_eq_none.mpr halone.2]
        · rw [owed_cons_of_ne heq] at hcounter
          rw [AList.lookup_insert_ne (Ne.symm heq)]
          exact hcounter
      · intro other hmem hother
        have hother' := h.alone other (by simp [hupdates, hmem]) hother
        exact ⟨by simp [AList.mem_insert, hne other hmem hother, hother'.1], hother'.2⟩
      · exact hdistinct.2
      · intro id hmem
        have hne : id ≠ update.id := fun heq => halone.2 (heq ▸ hmem)
        simp [AList.mem_insert, hne, h.pending id hmem]
      · intro other hmem hother
        exact h.zero other (by simp [hupdates, hmem]) hother

theorem Inv.flushRound (h : Inv session) {commit : Commit Id}
    (hout : session.commit.flushRound = some commit) : Inv { session with commit } := by
  simp only [Commit.flushRound, Option.ite_none_right_eq_some, Option.some.injEq] at hout
  obtain ⟨⟨hpending, hupdates⟩, rfl⟩ := hout
  have hempty : session.commit.pending = ∅ := AList.ext hpending
  refine ⟨?_, ?_, ?_, ?_, ?_⟩
  · intro id
    have hcounter := h.counter id
    simpa [Commit.counter, hupdates, hempty] using hcounter
  · simp [hupdates]
  · simp [hupdates]
  · exact fun _ _ => AList.notMem_empty _
  · simp [hupdates]

theorem Inv.flushEntry (h : Inv session) {commit : Commit Id}
    (hout : session.commit.internalUpdateCountersEntry id = some commit) :
    Inv { session with commit } := by
  unfold Commit.internalUpdateCountersEntry at hout
  split at hout
  · next refsValue hupdates hlookup =>
      have hcounter := h.counter id
      simp only [Commit.counter, hupdates, hlookup, owed_nil, Option.none_or, Option.some_or,
        Option.getD_some] at hcounter
      have hmem : id ∈ session.commit.pending :=
        AList.lookup_isSome.mp (by simp [hlookup])
      have herased : Inv ⟨{ session.commit with pending := session.commit.pending.erase id },
          Function.update session.ledger id ((session.commit.refcounters id).getD 0)⟩ := by
        refine ⟨?_, ?_, ?_, ?_, ?_⟩
        · intro other
          by_cases heq : other = id
          · subst heq
            simp [Commit.counter, hupdates, AList.lookup_eq_none.mpr (h.pending other hmem)]
          · have hother := h.counter other
            simp only [Commit.counter] at hother ⊢
            rw [AList.lookup_erase_ne heq, Function.update_of_ne heq]
            exact hother
        · simp [hupdates]
        · simp [hupdates]
        · intro other hother
          exact h.pending other (AList.mem_erase.mp hother).2
        · simp [hupdates]
      have hidle : Commit.Idle { session.commit with pending := session.commit.pending.erase id }
          id := ⟨by simp [hupdates], by simp [AList.mem_erase]⟩
      have hledger : ∀ value : ℤ, value = refsValue → Function.update (Function.update session.ledger
          id ((session.commit.refcounters id).getD 0)) id value = session.ledger := by
        intro value heq
        rw [Function.update_idem, heq, hcounter, Function.update_eq_self]
      simp only [Option.ite_none_left_eq_some] at hout
      obtain ⟨-, hout⟩ := hout
      split at hout
      · obtain rfl := Option.some.inj hout
        have hbegin := herased.begin ⟨id, some refsValue, false, false, false⟩ hidle
          (h.pending id hmem) rfl (by simp) session.commit.updateMode
        simp only [Option.getD_some, hledger _ rfl] at hbegin
        exact hbegin
      · simp only [Option.ite_none_right_eq_some] at hout
        obtain ⟨hzero, hout⟩ := hout
        obtain rfl := Option.some.inj hout
        have hbegin := herased.begin ⟨id, none, false, false, false⟩ hidle
          (h.pending id hmem) rfl (by simp) session.commit.updateMode
        simp only [Option.getD_none, hledger _ hzero.symm] at hbegin
        exact hbegin
  · exact absurd hout (by simp)

theorem Inv.flushEntry_ne_none (h : Inv session) (hopened : session.commit.opened = true)
    (hupdates : session.commit.updates = []) (hmem : id ∈ session.commit.pending)
    (hledger : 0 ≤ session.ledger id) : session.commit.internalUpdateCountersEntry id ≠ none := by
  obtain ⟨refsValue, hlookup⟩ := Option.isSome_iff_exists.mp (AList.lookup_isSome.mpr hmem)
  have hcounter := h.counter id
  simp only [Commit.counter, hupdates, hlookup, owed_nil, Option.none_or, Option.some_or,
    Option.getD_some] at hcounter
  have hsign : 0 < refsValue ∨ refsValue = 0 := by omega
  rcases hsign with hpos | hzero
  · simp [Commit.internalUpdateCountersEntry, hupdates, hlookup, hopened, hpos]
  · simp [Commit.internalUpdateCountersEntry, hupdates, hlookup, hopened, hzero]

/-- A step within the condition keeps every counter at what the calls have made of it. -/
theorem Inv.step {op : Op Id} (h : Inv session) (hok : StepOk session op)
    (hstep : RefCounters.step session op = some session') : Inv session' := by
  cases op with
  | refBlock id amount =>
      obtain rfl := Option.some.inj hstep
      exact h.refBlock hok.1 hok.2
  | unrefBlock id =>
      obtain ⟨out, hout, rfl⟩ := Option.map_eq_some_iff.mp hstep
      exact (h.unrefBlock hok.1 hout).2
  | openCounters =>
      obtain rfl := Option.some.inj hstep
      exact ⟨h.counter, h.alone, h.distinct, h.pending, h.zero⟩
  | write =>
      obtain ⟨commit, hout, rfl⟩ := Option.map_eq_some_iff.mp hstep
      exact h.write hout
  | return' =>
      obtain ⟨commit, hout, rfl⟩ := Option.map_eq_some_iff.mp hstep
      exact h.return' hout
  | flushRound =>
      obtain ⟨commit, hout, rfl⟩ := Option.map_eq_some_iff.mp hstep
      exact h.flushRound hout
  | flushEntry id =>
      obtain ⟨commit, hout, rfl⟩ := Option.map_eq_some_iff.mp hstep
      exact h.flushEntry hout

theorem Inv.settled (h : Inv session) : Settled session := by
  rintro ⟨hcache, hpending, hupdates⟩ id
  have hcounter := h.counter id
  have hcache : session.commit.countersCache = ∅ := AList.ext hcache
  have hpending : session.commit.pending = ∅ := AList.ext hpending
  simpa [Commit.counter, hcache, hpending, hupdates] using hcounter

theorem Inv.reported (h : Inv session) {op : Op Id} (hok : StepOk session op) :
    Reported session op := by
  cases op with
  | unrefBlock id =>
      exact ⟨fun out hout => (h.unrefBlock hok.1 hout).1, h.unrefBlock_ne_none hok.1 hok.2⟩
  | flushEntry id => exact h.flushEntry_ne_none hok
  | _ => trivial

/-- **The ledger of a commit.** In a run whose calls are all about idle counters, none of which is
cached and stored at once, and none of which is created in the container by more than one
reference, and which has its container open where an unref or the flush needs it, every unref of a
counter above zero has an answer, which is that the block is to be removed exactly if the counter is
then zero, and whenever the cache has been flushed the stored counters are those of the ledger. -/
theorem run_settles (stored : Id → Option ℤ) (opened : Bool) (ops : List (Op Id))
    (hrun : EveryStep step StepOk (Session.start stored opened) ops) :
    EveryState step Settled (Session.start stored opened) ops ∧
      EveryStep step Reported (Session.start stored opened) ops := by
  have hstep : ∀ (s : Session Id) op s', Inv s → StepOk s op → step s op = some s' → Inv s' :=
    fun _ _ _ hinv hok => hinv.step hok
  exact ⟨EveryState.of_invariant hstep (fun _ hinv => hinv.settled) (inv_start stored opened) hrun,
    EveryStep.of_invariant hstep (fun _ _ hinv hok => hinv.reported hok) (inv_start stored opened)
      hrun⟩

/-- A block is referenced twice before the container is open and once while the container is
changed for another block; both counters are flushed. -/
def flushedRun : List (Op ℕ) :=
  [.refBlock 5 2, .openCounters, .refBlock 3 4, .refBlock 7 1, .write, .return', .unrefBlock 3,
    .write, .return', .flushRound, .flushEntry 7, .write, .return', .flushEntry 5, .write, .return']

theorem run_settles_flushedRun :
    EveryStep step StepOk (Session.start (Function.update (fun _ : ℕ => none) 3 (some 1)) false)
        flushedRun ∧
      EveryState step Settled
        (Session.start (Function.update (fun _ : ℕ => none) 3 (some 1)) false) flushedRun := by
  have hrun : EveryStep step StepOk
      (Session.start (Function.update (fun _ : ℕ => none) 3 (some 1)) false) flushedRun := by
    decide +kernel
  exact ⟨hrun, (run_settles _ false flushedRun hrun).1⟩

/-- A block without a stored counter is referenced by two: the counter that is stored is one. -/
theorem run_not_settled : ¬ ∀ (stored : ℕ → Option ℤ) (opened : Bool) (ops : List (Op ℕ)),
    EveryState step Settled (Session.start stored opened) ops ∧
      EveryStep step Reported (Session.start stored opened) ops := by
  intro h
  have hstates := (h (fun _ => none) true [.refBlock 1 2, .write, .return']).1
  have hlast := ((hstates.2 _ rfl).2 _ rfl).2 _ rfl ⟨rfl, rfl, rfl⟩ 1
  revert hlast
  decide +kernel

end Memoria.RefCounters

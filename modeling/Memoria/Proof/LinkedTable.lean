import Memoria.Lib.Run
import Memoria.Proof.LinkedBuckets

/-!
# When a `LinkedMap` or a `LinkedSet` is a finite map or set

`put` counts an entry that it only overwrites, and `get` of a map reads the array without looking
whether there is one. Every other call keeps the table equal to the map that the run gives.
-/

namespace Memoria.LinkedTable

open Lib
open scoped List

variable {Key Entry : Type} {arena : BucketArena Entry} {array : List (Option ℕ)} {slot bucket : ℕ}
  {entry : Entry} {layout : Layout Key Entry} {hash : Key → ℕ} {n : ℕ} [DecidableEq Key]

structure Inv (layout : Layout Key Entry) (hash : Key → ℕ) (session : Session Key Entry) : Prop where
  keyed : ∀ key entry, session.content key = some entry → layout.key entry = key
  mem : ∀ entry, entry ∈ forEach session.table ↔ session.content (layout.key entry) = some entry
  size : session.table.size = (forEach session.table).length
  good : ∀ array, session.table.array = some array →
    Good layout hash array.length session.table.arena array
  filled : ∀ array, session.table.array = some array → forEach session.table ≠ []

variable {session : Session Key Entry} {table : LinkedTable Entry} {key : Key}

theorem forEach_of_some (h : table.array = some array) : forEach table = entries table.arena array := by
  rw [← pointed_eq_entries]
  simp only [forEach, h]
  rfl

theorem forEach_of_none (h : table.array = none) : forEach table = [] := by
  simp only [forEach, h]

omit [DecidableEq Key] in
theorem inv_start (layout : Layout Key Entry) (hash : Key → ℕ) : Inv layout hash start where
  keyed := fun _ _ h => absurd h (by simp [start])
  mem := by simp [start, forEach, create]
  size := rfl
  good := fun _ h => absurd h (by simp [start, create])
  filled := fun _ h => absurd h (by simp [start, create])

omit [DecidableEq Key] in
theorem Inv.refines (h : Inv layout hash session) : Refines layout hash session := by
  refine ⟨?_, h.mem, h.size, fun array harray => (h.good array harray).pow, ?_⟩
  · cases harray : session.table.array with
    | none =>
        rw [forEach_of_none harray]
        exact List.nodup_nil
    | some array =>
        rw [forEach_of_some harray]
        exact (h.good array harray).keys_nodup
  · intro array harray s bucket hs entry hentry
    have hlt : s < array.length := by
      by_contra hge
      rw [List.getD_eq_getElem?_getD, List.getElem?_eq_none (by omega)] at hs
      cases hs
    rw [← chain_of_some hs] at hentry
    exact (h.good array harray).placed.slot_eq s hlt entry hentry

omit [DecidableEq Key] in
/-- An entry of the table with the key is the one of the content. -/
theorem Inv.content_eq_some (h : Inv layout hash session) (hmem : entry ∈ forEach session.table) :
    session.content (layout.key entry) = some entry :=
  (h.mem entry).mp hmem

omit [DecidableEq Key] in
theorem Inv.content_eq_none (h : Inv layout hash session)
    (hnone : ∀ entry ∈ forEach session.table, layout.key entry ≠ key) :
    session.content key = none := by
  cases hcontent : session.content key with
  | none => rfl
  | some entry =>
      have hkey := h.keyed key entry hcontent
      rw [← hkey] at hcontent
      exact absurd hkey (hnone entry ((h.mem entry).mpr hcontent))

inductive Found (layout : Layout Key Entry) (hash : Key → ℕ) (arena : BucketArena Entry)
    (array : List (Option ℕ)) (key : Key) : Prop
  | absent (h : ∀ entry ∈ entries arena array, layout.key entry ≠ key)
      (hcode : ∀ bucket, array.getD (arraySlot hash array key) none = some bucket →
        locate layout (arena.buckets bucket) key = none)
  | present (bucket idx : ℕ) (hbucket : array.getD (arraySlot hash array key) none = some bucket)
      (hcode : locate layout (arena.buckets bucket) key = some idx)
      (hlt : idx < (arena.buckets bucket).data.length)
      (hkey : layout.key (arena.buckets bucket).data[idx] = key)
      (hmem : (arena.buckets bucket).data[idx] ∈ entries arena array)

theorem Good.found (h : Good layout hash n arena array) (key : Key) :
    Found layout hash arena array key := by
  have hslot := slotOf_lt hash h.pow key
  have hmem : ∀ entry, layout.key entry = key → (entry ∈ entries arena array ↔
      entry ∈ chain arena array (arraySlot hash array key)) := by
    intro entry hkey
    rw [h.mem_iff, hkey, arraySlot_eq h.length]
  cases hbucket : array.getD (arraySlot hash array key) none with
  | none =>
      refine Found.absent ?_ fun bucket hsome => ?_
      · intro entry hentry hkey
        rw [hmem entry hkey, chain_of_none hbucket] at hentry
        exact absurd hentry List.not_mem_nil
      · rw [hbucket] at hsome
        cases hsome
  | some bucket =>
      cases hcode : locate layout (arena.buckets bucket) key with
      | none =>
          refine Found.absent ?_ fun bucket' hsome => ?_
          · intro entry hentry hkey
            rw [hmem entry hkey, chain_of_some hbucket] at hentry
            rw [locate, List.findIdx?_eq_none_iff] at hcode
            have hne := hcode entry hentry
            simp [hkey] at hne
          · rw [hbucket] at hsome
            obtain rfl := Option.some.inj hsome
            exact hcode
      | some idx =>
          obtain ⟨hlt, hfound, -⟩ := List.findIdx?_eq_some_iff_getElem.mp hcode
          have hkey : layout.key (arena.buckets bucket).data[idx] = key := by
            simpa using Eq.symm (of_decide_eq_true hfound)
          refine Found.present bucket idx hbucket hcode hlt hkey ?_
          rw [hmem _ hkey, chain_of_some hbucket]
          exact List.getElem_mem hlt

theorem Inv.get (h : Inv layout hash session)
    (hok : layout.guarded = true ∨ forEach session.table ≠ []) :
    get layout hash session.table key = some (session.content key) := by
  cases harray : session.table.array with
  | none =>
      have hempty := forEach_of_none harray
      have hguard : layout.guarded = true := hok.resolve_right (fun hne => hne hempty)
      have hsize : session.table.size = 0 := by rw [h.size, hempty, List.length_nil]
      have hnone : session.content key = none := h.content_eq_none (by simp [hempty])
      simp [LinkedTable.get, hguard, hsize, hnone]
  | some array =>
      have hpos := List.length_pos_of_ne_nil (h.filled array harray)
      have hsize : session.table.size ≠ 0 := by
        rw [h.size]
        omega
      have hentries := forEach_of_some harray
      simp only [LinkedTable.get, hsize, and_false, if_false, harray, Option.some.injEq]
      cases (h.good array harray).found key with
      | absent habsent hcode =>
          have hnone : session.content key = none := by
            refine h.content_eq_none fun entry hmem => habsent entry ?_
            rwa [← hentries]
          rw [hnone]
          cases hbucket : array.getD (arraySlot hash array key) none with
          | none => rfl
          | some bucket => simp only [hcode bucket hbucket, Option.bind_none]
      | present bucket idx hbucket hcode hlt hkey hmem =>
          rw [← hentries] at hmem
          have hsome := h.content_eq_some hmem
          rw [hkey] at hsome
          simp only [hbucket, hcode, Option.bind_some, List.getElem?_eq_getElem hlt, hsome]

omit [DecidableEq Key] in
/-- The array that `put` works on. -/
theorem Inv.ensured (h : Inv layout hash session) :
    Good layout hash (session.table.array.getD [none]).length session.table.arena
        (session.table.array.getD [none]) ∧
      entries session.table.arena (session.table.array.getD [none]) = forEach session.table := by
  cases harray : session.table.array with
  | none =>
      refine ⟨good_replicate layout hash session.table.arena ⟨0, rfl⟩, ?_⟩
      rw [Option.getD_none, forEach_of_none harray, ← pointed_eq_entries]
      rfl
  | some array => exact ⟨h.good array harray, (forEach_of_some harray).symm⟩

/-- `put` leaves the array as `put_to` does, or rehashes it. -/
theorem put_entries (table : LinkedTable Entry) (entry : Entry) {arena' : BucketArena Entry}
    {array' : List (Option ℕ)}
    (hput : (putTo layout hash table.arena (table.array.getD [none]) entry none).1 = arena' ∧
      (putTo layout hash table.arena (table.array.getD [none]) entry none).2.1 = array')
    (hgood : Good layout hash n arena' array') :
    ∃ arena'' array'', put layout hash table entry = ⟨arena'', table.size + 1, some array''⟩ ∧
      Good layout hash array''.length arena'' array'' ∧ entries arena'' array'' ~ entries arena' array' := by
  obtain ⟨rfl, rfl⟩ := hput
  generalize hout : putTo layout hash table.arena (table.array.getD [none]) entry none = out at hgood ⊢
  have hlength := hgood.length
  by_cases hgrow : table.size > 0 ∧ table.size > out.2.1.length * 3 / 4
  · have hpow : ∃ k, out.2.1.length * 2 = 2 ^ k := by
      obtain ⟨k, hk⟩ := hgood.pow
      exact ⟨k + 1, by rw [hlength, hk, Nat.pow_succ]⟩
    obtain ⟨hgood', hperm⟩ := hgood.rehash hpow
    refine ⟨_, _, ?_, ?_, hperm⟩
    · simp only [put, hout, if_pos hgrow]
    · rw [hgood'.length]
      exact hgood'
  · refine ⟨out.1, out.2.1, ?_, ?_, List.Perm.refl _⟩
    · simp only [put, hout, if_neg hgrow]
    · rw [hlength]
      exact hgood

theorem Inv.put (h : Inv layout hash session)
    (habsent : ∀ old ∈ forEach session.table, layout.key old ≠ layout.key entry) :
    Inv layout hash ⟨LinkedTable.put layout hash session.table entry,
      Function.update session.content (layout.key entry) (some entry)⟩ := by
  obtain ⟨hgood, hentries⟩ := h.ensured
  have hspare : Spare session.table.arena (session.table.array.getD [none])
      ((none : Option (List ℕ)).getD []) := ⟨List.nodup_nil, fun b hb => absurd hb List.not_mem_nil⟩
  have hmoved := hgood.putTo_absent hspare (by rwa [hentries])
  obtain ⟨arena', array', hcode, hgood', hperm⟩ :=
    put_entries session.table entry ⟨rfl, rfl⟩ hmoved.good
  have hall : forEach (LinkedTable.put layout hash session.table entry) ~
      entry :: forEach session.table := by
    rw [hcode, forEach_of_some rfl, ← hentries]
    exact hperm.trans hmoved.perm
  refine ⟨?_, ?_, ?_, ?_, ?_⟩
  · intro key old hold
    dsimp only at hold
    by_cases heq : key = layout.key entry
    · subst heq
      rw [Function.update_self] at hold
      rw [Option.some.inj hold]
    · rw [Function.update_of_ne heq] at hold
      exact h.keyed key old hold
  · intro old
    dsimp only
    rw [hall.mem_iff, List.mem_cons, h.mem]
    by_cases heq : layout.key old = layout.key entry
    · rw [heq, Function.update_self]
      have hnone := h.content_eq_none habsent
      simp [hnone, eq_comm]
    · rw [Function.update_of_ne heq]
      exact ⟨fun hor => hor.resolve_left fun hsame => heq (by rw [hsame]), Or.inr⟩
  · rw [hall.length_eq, List.length_cons, ← h.size, hcode]
  · intro array harray
    rw [hcode] at harray ⊢
    obtain rfl := Option.some.inj harray
    exact hgood'
  · intro _ _ hnil
    rw [hnil] at hall
    exact absurd hall.length_eq (by simp)

/-- A key that is put again is counted twice. -/
theorem Inv.put_size_ne (h : Inv layout hash session)
    (hpresent : ∃ old ∈ forEach session.table, layout.key old = layout.key entry) :
    (LinkedTable.put layout hash session.table entry).size ≠
      (forEach (LinkedTable.put layout hash session.table entry)).length := by
  obtain ⟨hgood, hentries⟩ := h.ensured
  have hspare : Spare session.table.arena (session.table.array.getD [none])
      ((none : Option (List ℕ)).getD []) := ⟨List.nodup_nil, fun b hb => absurd hb List.not_mem_nil⟩
  generalize hn : (session.table.array.getD [none]).length = n at hgood
  have hslot := slotOf_lt hash hgood.pow (layout.key entry)
  have hch := putTo_changed layout hash entry hgood.owned hspare
    (by rw [arraySlot_eq hn, hn]; exact hslot)
  rw [arraySlot_eq hn] at hch
  have hkeys : (upsert layout (chain session.table.arena (session.table.array.getD [none])
      (slotOf hash n (layout.key entry))) entry).map layout.key =
      (chain session.table.arena (session.table.array.getD [none])
        (slotOf hash n (layout.key entry))).map layout.key := by
    obtain ⟨old, hold, hkey⟩ := hpresent
    rw [← hentries, hgood.mem_iff, hkey] at hold
    exact upsert_of_present ⟨old, hold, hkey⟩
  have hgood' : Good layout hash n _ _ := hgood.changed hch
    (by
      intro e he
      have hmem : layout.key e ∈ (upsert layout (chain session.table.arena
          (session.table.array.getD [none]) (slotOf hash n (layout.key entry))) entry).map
          layout.key := List.mem_map_of_mem he
      rw [hkeys] at hmem
      obtain ⟨old, hold, heq⟩ := List.mem_map.mp hmem
      rw [← heq]
      exact hgood.placed.slot_eq _ hslot old hold)
    (by
      rw [hkeys]
      exact hgood.placed.nodup _ hslot)
  obtain ⟨arena', array', hcode, -, hperm⟩ := put_entries session.table entry ⟨rfl, rfl⟩ hgood'
  have hlength : (upsert layout (chain session.table.arena (session.table.array.getD [none])
      (slotOf hash n (layout.key entry))) entry).length =
      (chain session.table.arena (session.table.array.getD [none])
        (slotOf hash n (layout.key entry))).length := by
    simpa using congrArg List.length hkeys
  rw [hcode, forEach_of_some rfl, hperm.length_eq]
  dsimp only
  rw [h.size, ← hentries, entries, entries, hch.length, hn, hch.chain,
    allChains_update_length _ hslot hlength]
  omega

/-- An empty slot is set to null. -/
theorem Owned.drop (h : Owned arena array)
    (hbucket : array.getD slot none = some bucket) (new : Bucket Entry) :
    Changed arena array [] (arena.set bucket new) (array.set slot none) [] slot [] := by
  have hslot : slot < array.length := by
    by_contra hge
    rw [List.getD_eq_getElem?_getD, List.getElem?_eq_none (by omega)] at hbucket
    cases hbucket
  have hne : ∀ s b, s ≠ slot → array.getD s none = some b → b ≠ bucket := by
    intro s b hs hb heq
    exact hs (h.distinct s slot bucket (heq ▸ hb) hbucket)
  have hget : ∀ s b, (array.set slot none).getD s none = some b →
      s ≠ slot ∧ array.getD s none = some b := by
    intro s b hs
    rw [getD_set hslot] at hs
    split at hs
    · cases hs
    · next hs' => exact ⟨hs', hs⟩
  refine ⟨List.length_set, ⟨?_, ?_⟩, ?_, ⟨List.nodup_nil, fun b hb => absurd hb List.not_mem_nil⟩,
    Nat.le_refl _, ?_⟩
  · intro s s' b hs hs'
    exact h.distinct s s' b (hget s b hs).2 (hget s' b hs').2
  · intro s b hs
    obtain ⟨hs, hb⟩ := hget s b hs
    simp only [BucketArena.set, Function.update_of_ne (hne s b hs hb)]
    exact h.valid s b hb
  · funext s
    by_cases heq : s = slot
    · subst heq
      rw [Function.update_self, chain_of_none]
      rw [getD_set hslot, if_pos rfl]
    · rw [Function.update_of_ne heq]
      cases hs : array.getD s none with
      | none =>
          rw [chain_of_none hs, chain_of_none]
          rw [getD_set hslot, if_neg heq, hs]
      | some b =>
          have hs' : (array.set slot none).getD s none = some b := by
            rw [getD_set hslot, if_neg heq, hs]
          rw [chain_of_some hs, chain_of_some hs']
          simp [BucketArena.set, Function.update_of_ne (hne s b heq hs)]
  · intro b _ _ hout
    have hbne : b ≠ bucket := fun heq => hout slot (heq ▸ hbucket)
    simp only [BucketArena.set, Function.update_of_ne hbne]
    refine ⟨trivial, List.not_mem_nil, fun s hs => ?_⟩
    exact hout s (hget s b hs).2

omit [DecidableEq Key] in
/-- The array after an entry of a bucket is removed. -/
theorem Good.removed (h : Good layout hash n arena array) {idx : ℕ}
    (hbucket : array.getD slot none = some bucket) (hslot : slot < n)
    (hlt : idx < (arena.buckets bucket).data.length) :
    ∃ array', (if ((arena.buckets bucket).remove idx).data.length = 0 then array.set slot none
        else array) = array' ∧
      Good layout hash n (arena.set bucket ((arena.buckets bucket).remove idx)) array' ∧
      entries arena array ~ (arena.buckets bucket).data[idx] ::
        entries (arena.set bucket ((arena.buckets bucket).remove idx)) array' := by
  have hspare : Spare arena array [] := ⟨List.nodup_nil, fun b hb => absurd hb List.not_mem_nil⟩
  have hfits := (h.owned.valid slot bucket hbucket).2.2
  have hsub : ((arena.buckets bucket).data.eraseIdx idx).Sublist (chain arena array slot) := by
    rw [chain_of_some hbucket]
    exact List.eraseIdx_sublist _ _
  have hch : ∃ array', (if ((arena.buckets bucket).remove idx).data.length = 0 then
      array.set slot none else array) = array' ∧
      Changed arena array [] (arena.set bucket ((arena.buckets bucket).remove idx)) array' [] slot
        ((arena.buckets bucket).data.eraseIdx idx) := by
    split
    · next hzero =>
        have hnil : (arena.buckets bucket).data.eraseIdx idx = [] := List.length_eq_zero_iff.mp hzero
        rw [hnil]
        exact ⟨_, rfl, h.owned.drop hbucket _⟩
    · next hpos =>
        have hne : (arena.buckets bucket).data.eraseIdx idx ≠ [] := fun hnil =>
          hpos (List.length_eq_zero_iff.mpr hnil)
        refine ⟨array, rfl, h.owned.set hspare hbucket ((arena.buckets bucket).remove idx) hne ?_⟩
        have hshort := List.length_eraseIdx_le (arena.buckets bucket).data idx
        exact Nat.le_trans hshort hfits
  obtain ⟨array', hcode, hch⟩ := hch
  refine ⟨array', hcode, h.changed hch ?_ ?_, ?_⟩
  · exact fun e he => h.placed.slot_eq slot hslot e (hsub.subset he)
  · exact (h.placed.nodup slot hslot).sublist (hsub.map _)
  · rw [entries, entries, hch.length, h.length, hch.chain]
    refine allChains_erase_perm _ hslot ?_
    rw [chain_of_some hbucket]
    exact (List.getElem_cons_eraseIdx_perm hlt).symm

/-- The end of `remove`: the array is kept, halved, or dropped with its last entry. -/
theorem removeAt_entries (table : LinkedTable Entry) {idx : ℕ} {array' : List (Option ℕ)}
    (hcode : (if ((table.arena.buckets bucket).remove idx).data.length = 0 then
      array.set slot none else array) = array')
    (hgood : Good layout hash n
      (table.arena.set bucket ((table.arena.buckets bucket).remove idx)) array')
    (hsize : table.size - 1 =
      (entries (table.arena.set bucket ((table.arena.buckets bucket).remove idx)) array').length) :
    ∃ out, removeAt layout hash table array slot bucket idx = out ∧ out.size = table.size - 1 ∧
      forEach out ~
        entries (table.arena.set bucket ((table.arena.buckets bucket).remove idx)) array' ∧
      (∀ array, out.array = some array → Good layout hash array.length out.arena array) ∧
      ∀ array, out.array = some array → forEach out ≠ [] := by
  refine ⟨_, rfl, ?_⟩
  simp only [removeAt, hcode]
  generalize table.arena.set bucket ((table.arena.buckets bucket).remove idx) = arena at *
  have hlength := hgood.length
  split
  · next hpos =>
      have hne : ∀ out : List Entry, out ~ entries arena array' → out ≠ [] := by
        rintro out hperm rfl
        rw [← hperm.length_eq] at hsize
        simp only [List.length_nil] at hsize
        omega
      split
      · next hless =>
          have hhalf : ∃ k, array'.length / 2 = 2 ^ k := by
            obtain ⟨k, hk⟩ := hgood.pow
            rw [hlength, hk] at hless ⊢
            cases k with
            | zero => simp at hless; omega
            | succ k => exact ⟨k, by rw [Nat.pow_succ]; omega⟩
          obtain ⟨hgood', hperm⟩ := hgood.rehash hhalf
          refine ⟨rfl, ?_, ?_, ?_⟩
          · rw [forEach_of_some rfl]
            exact hperm
          · intro array harray
            obtain rfl := Option.some.inj harray
            rw [hgood'.length]
            exact hgood'
          · intro _ _
            rw [forEach_of_some rfl]
            exact hne _ hperm
      · refine ⟨rfl, ?_, ?_, ?_⟩
        · rw [forEach_of_some rfl]
        · intro array harray
          obtain rfl := Option.some.inj harray
          rw [hlength]
          exact hgood
        · intro _ _
          rw [forEach_of_some rfl]
          exact hne _ (List.Perm.refl _)
  · next hzero =>
      have hnil : entries arena array' = [] := List.length_eq_zero_iff.mp (by omega)
      rw [hnil, forEach_of_none rfl]
      exact ⟨rfl, List.Perm.refl _, fun _ h => absurd h (by simp), fun _ h => absurd h (by simp)⟩

/-- What is left when an entry is taken out of a table. -/
theorem Inv.erase (h : Inv layout hash session) {table : LinkedTable Entry} {entry : Entry}
    (hperm : forEach session.table ~ entry :: forEach table)
    (hsize : table.size = session.table.size - 1)
    (hgood : ∀ array, table.array = some array → Good layout hash array.length table.arena array)
    (hfilled : ∀ array, table.array = some array → forEach table ≠ []) :
    Inv layout hash ⟨table, Function.update session.content (layout.key entry) none⟩ := by
  have hnodup : ((forEach session.table).map layout.key).Nodup := h.refines.nodup
  rw [(hperm.map layout.key).nodup_iff, List.map_cons, List.nodup_cons] at hnodup
  refine ⟨?_, ?_, ?_, hgood, hfilled⟩
  · intro key old hold
    dsimp only at hold
    by_cases heq : key = layout.key entry
    · subst heq
      rw [Function.update_self] at hold
      cases hold
    · rw [Function.update_of_ne heq] at hold
      exact h.keyed key old hold
  · intro old
    dsimp only
    by_cases heq : layout.key old = layout.key entry
    · rw [heq, Function.update_self]
      refine iff_of_false (fun hmem => hnodup.1 ?_) (by simp)
      rw [← heq]
      exact List.mem_map_of_mem hmem
    · rw [Function.update_of_ne heq, ← h.mem, hperm.mem_iff, List.mem_cons]
      exact ⟨Or.inr, fun hor => hor.resolve_left fun hsame => heq (by rw [hsame])⟩
  · dsimp only
    rw [hsize, h.size, hperm.length_eq]
    rfl

theorem Inv.remove (h : Inv layout hash session) (key : Key) :
    (remove layout hash session.table key).1 = (session.content key).isSome ∧
      Inv layout hash ⟨(LinkedTable.remove layout hash session.table key).2,
        Function.update session.content key none⟩ := by
  -- where nothing is found the content has no such key
  have hsame : session.content key = none →
      Inv layout hash ⟨session.table, Function.update session.content key none⟩ := by
    intro hnone
    rw [← hnone, Function.update_eq_self]
    exact h
  cases harray : session.table.array with
  | none =>
      have hnone : session.content key = none :=
        h.content_eq_none (by simp [forEach_of_none harray])
      have hcode : LinkedTable.remove layout hash session.table key = (false, session.table) := by
        simp only [LinkedTable.remove, harray]
      rw [hcode, hnone]
      exact ⟨rfl, hsame hnone⟩
  | some array =>
      have hentries := forEach_of_some harray
      have hgood := h.good array harray
      cases hgood.found key with
      | absent habsent hcode =>
          have hnone : session.content key = none := by
            refine h.content_eq_none fun entry hmem => habsent entry ?_
            rwa [← hentries]
          have hcode : LinkedTable.remove layout hash session.table key = (false, session.table) := by
            simp only [LinkedTable.remove, harray]
            cases hbucket : array.getD (arraySlot hash array key) none with
            | none => rfl
            | some bucket => simp only [hcode bucket hbucket]
          rw [hcode, hnone]
          exact ⟨rfl, hsame hnone⟩
      | present bucket idx hbucket hcode hlt hkey hmem =>
          have hsome := h.content_eq_some (by rwa [hentries])
          rw [hkey] at hsome
          have hcode : LinkedTable.remove layout hash session.table key =
              (true, removeAt layout hash session.table array (arraySlot hash array key) bucket
                idx) := by
            simp only [LinkedTable.remove, harray, hbucket, hcode]
          obtain ⟨array', hcode', hgood', hperm⟩ := hgood.removed hbucket
            (by rw [arraySlot_eq rfl]; exact slotOf_lt hash hgood.pow key) hlt
          have hlength := hperm.length_eq
          rw [← hentries, List.length_cons] at hlength
          obtain ⟨out, hout, hsize, hleft, hgoods, hfilled⟩ :=
            removeAt_entries session.table hcode' hgood' (by rw [h.size]; omega)
          rw [hcode, hsome, hout, ← hkey]
          refine ⟨rfl, h.erase ?_ hsize hgoods hfilled⟩
          rw [hentries]
          exact hperm.trans (hleft.symm.cons _)

theorem chain_cons_succ (arena : BucketArena Entry) (value : Option ℕ) (values : List (Option ℕ))
    (s : ℕ) : chain arena (value :: values) (s + 1) = chain arena values s := by
  simp only [chain, List.getD_cons_succ]

structure Copied (arena : BucketArena Entry) (values : List (Option ℕ)) (dst : BucketArena Entry)
    (out : List (Option ℕ) × BucketArena Entry) : Prop where
  length : out.1.length = values.length
  top : dst.top ≤ out.2.top
  frame : ∀ b < dst.top, out.2.buckets b = dst.buckets b
  new : ∀ s b, out.1.getD s none = some b → dst.top ≤ b
  owned : Owned out.2 out.1
  chain : ∀ s, chain out.2 out.1 s = chain arena values s

theorem copyBuckets_copied (arena : BucketArena Entry) (values : List (Option ℕ))
    (hne : ∀ s b, values.getD s none = some b → (arena.buckets b).data ≠ [])
    (dst : BucketArena Entry) : Copied arena values dst (copyBuckets arena values dst) := by
  induction values generalizing dst with
  | nil =>
      refine ⟨rfl, Nat.le_refl _, fun _ _ => rfl, ?_, ⟨?_, ?_⟩, fun s => rfl⟩
      · intro s b hs
        cases hs
      · intro s s' b hs
        cases hs
      · intro s b hs
        cases hs
  | cons value values ih =>
      have hrest : ∀ s b, values.getD s none = some b → (arena.buckets b).data ≠ [] :=
        fun s b hs => hne (s + 1) b hs
      cases value with
      | none =>
          have hout := ih hrest dst
          refine ⟨congrArg Nat.succ hout.length, hout.top, hout.frame, ?_, ⟨?_, ?_⟩, ?_⟩
          · intro s b hs
            cases s with
            | zero => cases hs
            | succ s => exact hout.new s b hs
          · intro s s' b hs hs'
            cases s with
            | zero => cases hs
            | succ s =>
                cases s' with
                | zero => cases hs'
                | succ s' => exact congrArg Nat.succ (hout.owned.distinct s s' b hs hs')
          · intro s b hs
            cases s with
            | zero => cases hs
            | succ s => exact hout.owned.valid s b hs
          · intro s
            cases s with
            | zero => rfl
            | succ s => exact hout.chain s
      | some bucket =>
          have hout := ih hrest
            (dst.allocate ⟨(arena.buckets bucket).data.length, (arena.buckets bucket).data⟩)
          have htop : dst.top + 1 ≤ _ := hout.top
          have hcopy : (copyBuckets arena (some bucket :: values) dst).2.buckets dst.top =
              ⟨(arena.buckets bucket).data.length, (arena.buckets bucket).data⟩ := by
            refine (hout.frame dst.top (Nat.lt_succ_self _)).trans ?_
            exact Function.update_self ..
          refine ⟨congrArg Nat.succ hout.length, Nat.le_of_succ_le htop, ?_, ?_, ⟨?_, ?_⟩, ?_⟩
          · intro b hb
            refine (hout.frame b (Nat.lt_succ_of_lt hb)).trans ?_
            exact Function.update_of_ne (Nat.ne_of_lt hb) _ _
          · intro s b hs
            cases s with
            | zero => exact Nat.le_of_eq (Option.some.inj hs)
            | succ s => exact Nat.le_of_succ_le (hout.new s b hs)
          · intro s s' b hs hs'
            cases s with
            | zero =>
                obtain rfl := Option.some.inj hs
                cases s' with
                | zero => rfl
                | succ s' => exact absurd (hout.new s' _ hs') (Nat.not_succ_le_self _)
            | succ s =>
                cases s' with
                | zero =>
                    obtain rfl := Option.some.inj hs'
                    exact absurd (hout.new s _ hs) (Nat.not_succ_le_self _)
                | succ s' => exact congrArg Nat.succ (hout.owned.distinct s s' b hs hs')
          · intro s b hs
            cases s with
            | zero =>
                obtain rfl := Option.some.inj hs
                rw [hcopy]
                exact ⟨htop, hne 0 bucket rfl, Nat.le_refl _⟩
            | succ s => exact hout.owned.valid s b hs
          · intro s
            cases s with
            | zero =>
                have hslot : (copyBuckets arena (some bucket :: values) dst).1.getD 0 none =
                    some dst.top := rfl
                have hslot' : (some bucket :: values).getD 0 none = some bucket := rfl
                rw [chain_of_some hslot, chain_of_some hslot', hcopy]
            | succ s =>
                rw [chain_cons_succ]
                exact hout.chain s

omit [DecidableEq Key] in
theorem Inv.deepCopyTo (h : Inv layout hash session) (dst : BucketArena Entry) :
    Inv layout hash ⟨LinkedTable.deepCopyTo session.table dst, session.content⟩ := by
  cases harray : session.table.array with
  | none =>
      have hcode : LinkedTable.deepCopyTo session.table dst = ⟨dst, 0, none⟩ := by
        simp only [LinkedTable.deepCopyTo, harray]
      have hempty := forEach_of_none harray
      rw [hcode]
      refine ⟨h.keyed, ?_, rfl, fun _ hsome => absurd hsome (by simp),
        fun _ hsome => absurd hsome (by simp)⟩
      intro entry
      rw [← h.mem, hempty]
      rfl
  | some array =>
      have hgood := h.good array harray
      have hout := copyBuckets_copied session.table.arena array
        (fun s b hs => (hgood.owned.valid s b hs).2.1) dst
      have hcode : LinkedTable.deepCopyTo session.table dst =
          ⟨(copyBuckets session.table.arena array dst).2, session.table.size,
            some (copyBuckets session.table.arena array dst).1⟩ := by
        simp only [LinkedTable.deepCopyTo, harray]
      have hsame : forEach (LinkedTable.deepCopyTo session.table dst) = forEach session.table := by
        rw [hcode, forEach_of_some rfl, forEach_of_some harray, entries, entries, hout.length]
        exact allChains_congr fun s _ => hout.chain s
      refine ⟨h.keyed, ?_, ?_, ?_, ?_⟩
      · intro entry
        dsimp only
        rw [hsame, h.mem]
      · dsimp only
        rw [hsame, ← h.size, hcode]
      · intro array' harray'
        rw [hcode] at harray' ⊢
        obtain rfl := Option.some.inj harray'
        rw [hout.length]
        refine ⟨hgood.pow, hout.length, hout.owned, ?_⟩
        rw [funext hout.chain]
        exact hgood.placed
      · intro array' _
        dsimp only
        rw [hsame]
        exact h.filled array harray

/-- A call within the condition keeps the table in step with the map. -/
theorem Inv.step {op : Op Key Entry} {session' : Session Key Entry} (h : Inv layout hash session)
    (hok : StepOk layout session op) (hstep : LinkedTable.step layout hash session op = some session') :
    Inv layout hash session' := by
  cases op with
  | put entry =>
      obtain rfl := Option.some.inj hstep
      exact h.put hok
  | remove key =>
      obtain rfl := Option.some.inj hstep
      exact (h.remove key).2
  | get key =>
      obtain ⟨-, heq⟩ := Option.ite_none_right_eq_some.mp hstep
      obtain rfl := Option.some.inj heq
      exact h
  | deepCopyTo dst =>
      obtain rfl := Option.some.inj hstep
      exact h.deepCopyTo dst

theorem Inv.outcome {op : Op Key Entry} (h : Inv layout hash session) (hok : StepOk layout session op) :
    Outcome layout hash session op := by
  cases op with
  | put entry => trivial
  | remove key => exact (h.remove key).1
  | get key => exact h.get hok
  | deepCopyTo dst => trivial

/-- A call that the condition excludes breaks the size or has no outcome. -/
theorem Inv.not_refines {op : Op Key Entry} (h : Inv layout hash session)
    (hout : Outcome layout hash session op) (hnot : ¬ StepOk layout session op) :
    ∃ session', LinkedTable.step layout hash session op = some session' ∧
      ¬ Refines layout hash session' := by
  cases op with
  | put entry =>
      refine ⟨_, rfl, fun hrefines => h.put_size_ne ?_ hrefines.size⟩
      simpa [StepOk] using hnot
  | remove key => exact absurd trivial hnot
  | get key =>
      obtain ⟨hguard, hempty⟩ := not_or.mp hnot
      exfalso
      cases harray : session.table.array with
      | some array => exact hempty (h.filled array harray)
      | none =>
          have hcode : LinkedTable.get layout hash session.table key = none := by
            simp [LinkedTable.get, hguard, harray]
          have hout : LinkedTable.get layout hash session.table key = some (session.content key) := hout
          rw [hcode] at hout
          cases hout
  | deepCopyTo dst => exact absurd trivial hnot

theorem layout_refines_iff (layout : Layout Key Entry) (hash : Key → ℕ) (ops : List (Op Key Entry)) :
    (EveryState (step layout hash) (Refines layout hash) start ops ∧
        EveryStep (step layout hash) (Outcome layout hash) start ops) ↔
      EveryStep (step layout hash) (StepOk layout) start ops := by
  have hstep : ∀ (s : Session Key Entry) op s', Inv layout hash s → StepOk layout s op →
      step layout hash s op = some s' → Inv layout hash s' := fun _ _ _ hinv hok => hinv.step hok
  constructor
  · rintro ⟨hstates, houts⟩
    exact EveryStep.of_broken hstep (fun _ _ hinv _ hout => hinv.not_refines hout)
      (inv_start layout hash) hstates houts
  · intro hrun
    exact ⟨EveryState.of_invariant hstep (fun _ hinv => hinv.refines) (inv_start layout hash) hrun,
      EveryStep.of_invariant hstep (fun _ _ hinv hok => hinv.outcome hok) (inv_start layout hash) hrun⟩

/-- **When a table refines a finite map.** For both layouts and every hash function: in a run from
an empty table every state refines the map that the same run gives, and `get` and `remove` return
what they are to return, if and only if no key is put while it is present and, for a `LinkedMap`,
`get` is not called while the map is empty. -/
theorem run_refines_iff (hash : Key → ℕ) (Value : Type) :
    (∀ ops : List (Op Key (Key × Value)),
      (EveryState (step (LinkedMap Key Value) hash) (Refines (LinkedMap Key Value) hash) start ops ∧
          EveryStep (step (LinkedMap Key Value) hash) (Outcome (LinkedMap Key Value) hash) start ops) ↔
        EveryStep (step (LinkedMap Key Value) hash) (StepOk (LinkedMap Key Value)) start ops) ∧
      ∀ ops : List (Op Key Key),
        (EveryState (step (LinkedSet Key) hash) (Refines (LinkedSet Key) hash) start ops ∧
            EveryStep (step (LinkedSet Key) hash) (Outcome (LinkedSet Key) hash) start ops) ↔
          EveryStep (step (LinkedSet Key) hash) (StepOk (LinkedSet Key)) start ops :=
  ⟨fun ops => layout_refines_iff (LinkedMap Key Value) hash ops,
    fun ops => layout_refines_iff (LinkedSet Key) hash ops⟩

/-- A key is put twice: the size is two, and there is one entry. -/
theorem run_not_refines : ¬ ∀ ops : List (Op ℕ (ℕ × ℕ)),
    EveryState (step (LinkedMap ℕ ℕ) id) (Refines (LinkedMap ℕ ℕ) id) start ops ∧
      EveryStep (step (LinkedMap ℕ ℕ) id) (Outcome (LinkedMap ℕ ℕ) id) start ops := by
  intro h
  have hstates := (h [.put (1, 5), .put (1, 6)]).1
  have hlast := ((hstates.2 _ rfl).2 _ rfl).size
  revert hlast
  decide +kernel

end Memoria.LinkedTable

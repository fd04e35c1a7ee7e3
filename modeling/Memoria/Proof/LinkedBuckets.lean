import Memoria.Lib.Chains
import Memoria.LinkedTable

/-!
# The buckets of a linked table

The chains of a table are the entries of its buckets. The array owns its buckets: no two slots share
one, and none is in the cache of recycled buckets that a rehash works with. So each `put_to` changes
one chain, and a rehash moves every entry to its new chain.
-/

namespace Memoria.LinkedTable

open Lib
open scoped List

variable {Key Entry : Type} {arena arena' : BucketArena Entry} {array array' : List (Option ℕ)}
  {cache cache' : List ℕ} {slot bucket : ℕ} {entry : Entry} {data : List Entry}

def chain (arena : BucketArena Entry) (array : List (Option ℕ)) (s : ℕ) : List Entry :=
  match array.getD s none with
  | none => []
  | some bucket => (arena.buckets bucket).data

theorem chain_of_some (h : array.getD slot none = some bucket) :
    chain arena array slot = (arena.buckets bucket).data := by
  simp only [chain, h]

theorem chain_of_none (h : array.getD slot none = none) : chain arena array slot = [] := by
  simp only [chain, h]

theorem getD_set (hslot : slot < array.length) (value : Option ℕ) (s : ℕ) :
    (array.set slot value).getD s none = if s = slot then value else array.getD s none := by
  rw [List.getD_eq_getElem?_getD, List.getElem?_set, List.getD_eq_getElem?_getD]
  by_cases heq : s = slot
  · subst heq
    simp [hslot]
  · simp [heq, Ne.symm heq]

structure Owned (arena : BucketArena Entry) (array : List (Option ℕ)) : Prop where
  distinct : ∀ s s' b, array.getD s none = some b → array.getD s' none = some b → s = s'
  valid : ∀ s b, array.getD s none = some b →
    b < arena.top ∧ (arena.buckets b).data ≠ [] ∧
      (arena.buckets b).data.length ≤ (arena.buckets b).capacity

structure Spare (arena : BucketArena Entry) (array : List (Option ℕ)) (cache : List ℕ) : Prop where
  nodup : cache.Nodup
  free : ∀ b ∈ cache, b < arena.top ∧ 0 < (arena.buckets b).capacity ∧
    (arena.buckets b).data = [] ∧ ∀ s, array.getD s none ≠ some b

structure Changed (arena : BucketArena Entry) (array : List (Option ℕ)) (cache : List ℕ)
    (arena' : BucketArena Entry) (array' : List (Option ℕ)) (cache' : List ℕ) (slot : ℕ)
    (data : List Entry) : Prop where
  length : array'.length = array.length
  owned : Owned arena' array'
  chain : chain arena' array' = Function.update (chain arena array) slot data
  spare : Spare arena' array' cache'
  top : arena.top ≤ arena'.top
  frame : ∀ b < arena.top, b ∉ cache → (∀ s, array.getD s none ≠ some b) →
    arena'.buckets b = arena.buckets b ∧ b ∉ cache' ∧ ∀ s, array'.getD s none ≠ some b

/-- A bucket of the array is changed in place. -/
theorem Owned.set (h : Owned arena array) (hspare : Spare arena array cache)
    (hbucket : array.getD slot none = some bucket) (new : Bucket Entry) (hne : new.data ≠ [])
    (hfits : new.data.length ≤ new.capacity) :
    Changed arena array cache (arena.set bucket new) array cache slot new.data := by
  have hother : ∀ s b, s ≠ slot → array.getD s none = some b → b ≠ bucket := by
    intro s b hs hb heq
    exact hs (h.distinct s slot bucket (heq ▸ hb) hbucket)
  refine ⟨rfl, ⟨h.distinct, ?_⟩, ?_, ⟨hspare.nodup, ?_⟩, Nat.le_refl _, ?_⟩
  · intro s b hb
    have hvalid := h.valid s b hb
    simp only [BucketArena.set]
    by_cases heq : b = bucket
    · subst heq
      rw [Function.update_self]
      exact ⟨hvalid.1, hne, hfits⟩
    · rw [Function.update_of_ne heq]
      exact hvalid
  · funext s
    by_cases heq : s = slot
    · subst heq
      rw [Function.update_self, chain_of_some hbucket]
      simp [BucketArena.set]
    · rw [Function.update_of_ne heq]
      cases hs : array.getD s none with
      | none => rw [chain_of_none hs, chain_of_none hs]
      | some b =>
          rw [chain_of_some hs, chain_of_some hs]
          simp [BucketArena.set, Function.update_of_ne (hother s b heq hs)]
  · intro b hb
    have hfree := hspare.free b hb
    have hne : b ≠ bucket := fun heq => hfree.2.2.2 slot (heq ▸ hbucket)
    simp only [BucketArena.set, Function.update_of_ne hne]
    exact hfree
  · intro b _ hcache hout
    have hne : b ≠ bucket := fun heq => hout slot (heq ▸ hbucket)
    simp only [BucketArena.set, Function.update_of_ne hne]
    exact ⟨trivial, hcache, hout⟩

structure Obtained (arena : BucketArena Entry) (cache : List ℕ) (bucket : ℕ)
    (arena' : BucketArena Entry) (cache' : List ℕ) (data : List Entry) : Prop where
  origin : bucket ∈ cache ∨ bucket = arena.top
  lt : bucket < arena'.top
  holds : (arena'.buckets bucket).data = data
  room : data.length < (arena'.buckets bucket).capacity
  top : arena.top ≤ arena'.top
  frame : ∀ b < arena.top, b ≠ bucket → arena'.buckets b = arena.buckets b
  nodup : cache'.Nodup
  sub : ∀ b ∈ cache', b ∈ cache ∧ b ≠ bucket

/-- A bucket is put into a slot of the array, with one more entry. -/
theorem Owned.place (h : Owned arena array) (hspare : Spare arena array cache)
    (hslot : slot < array.length) (hob : Obtained arena cache bucket arena' cache' data)
    (new : Bucket Entry) (hcap : new.capacity = (arena'.buckets bucket).capacity)
    (hdata : new.data = data ++ [entry]) :
    Changed arena array cache (arena'.set bucket new) (array.set slot (some bucket)) cache' slot
      (data ++ [entry]) := by
  have hroom := hob.room
  have hout : ∀ s, array.getD s none ≠ some bucket := by
    intro s hs
    rcases hob.origin with hcache | htop
    · exact (hspare.free bucket hcache).2.2.2 s hs
    · have hlt := (h.valid s bucket hs).1
      omega
  have hne : ∀ s b, array.getD s none = some b → b ≠ bucket := fun s b hb heq =>
    hout s (heq ▸ hb)
  refine ⟨List.length_set, ⟨?_, ?_⟩, ?_, ⟨hob.nodup, ?_⟩, hob.top, ?_⟩
  · intro s s' b hs hs'
    rw [getD_set hslot] at hs hs'
    split at hs <;> split at hs'
    · next heq heq' => rw [heq, heq']
    · obtain rfl := Option.some.inj hs
      exact absurd hs' (hout s')
    · obtain rfl := Option.some.inj hs'
      exact absurd hs (hout s)
    · exact h.distinct s s' b hs hs'
  · intro s b hs
    rw [getD_set hslot] at hs
    simp only [BucketArena.set]
    split at hs
    · obtain rfl := Option.some.inj hs
      rw [Function.update_self, hcap, hdata, List.length_append, List.length_singleton]
      exact ⟨hob.lt, by simp, by omega⟩
    · have hvalid := h.valid s b hs
      rw [Function.update_of_ne (hne s b hs), hob.frame b hvalid.1 (hne s b hs)]
      exact ⟨Nat.lt_of_lt_of_le hvalid.1 hob.top, hvalid.2⟩
  · funext s
    by_cases heq : s = slot
    · subst heq
      have hs : (array.set s (some bucket)).getD s none = some bucket := by
        rw [getD_set hslot, if_pos rfl]
      rw [Function.update_self, chain_of_some hs]
      simp [BucketArena.set, hdata]
    · rw [Function.update_of_ne heq]
      cases hs : array.getD s none with
      | none =>
          rw [chain_of_none hs, chain_of_none]
          rw [getD_set hslot, if_neg heq, hs]
      | some b =>
          have hs' : (array.set slot (some bucket)).getD s none = some b := by
            rw [getD_set hslot, if_neg heq, hs]
          rw [chain_of_some hs, chain_of_some hs']
          simp only [BucketArena.set]
          rw [Function.update_of_ne (hne s b hs), hob.frame b (h.valid s b hs).1 (hne s b hs)]
  · intro b hb
    obtain ⟨hb, hbne⟩ := hob.sub b hb
    obtain ⟨hlt, hcap', hempty, hfree⟩ := hspare.free b hb
    simp only [BucketArena.set]
    rw [Function.update_of_ne hbne, hob.frame b hlt hbne]
    refine ⟨Nat.lt_of_lt_of_le hlt hob.top, hcap', hempty, fun s => ?_⟩
    rw [getD_set hslot]
    split
    · exact fun hs => hbne (Option.some.inj hs).symm
    · exact hfree s
  · intro b hlt hcache hfree
    have hbne : b ≠ bucket := by
      rintro rfl
      rcases hob.origin with hmem | htop
      · exact hcache hmem
      · omega
    simp only [BucketArena.set]
    rw [Function.update_of_ne hbne, hob.frame b hlt hbne]
    refine ⟨rfl, fun hmem => hcache (hob.sub b hmem).1, fun s => ?_⟩
    rw [getD_set hslot]
    split
    · exact fun hs => hbne (Option.some.inj hs).symm
    · exact hfree s

section PutTo

variable {cached : Option (List ℕ)}

/-- A bucket from the front of the cache. -/
theorem obtained_front {front : ℕ} {rest : List ℕ} (hspare : Spare arena array (front :: rest))
    (htop : arena'.top = arena.top) (hframe : ∀ b ≠ front, arena'.buckets b = arena.buckets b)
    (hdata : (arena'.buckets front).data = data)
    (hroom : data.length < (arena'.buckets front).capacity) :
    Obtained arena (front :: rest) front arena' rest data := by
  obtain ⟨hnot, hnodup⟩ := List.nodup_cons.mp hspare.nodup
  refine ⟨Or.inl List.mem_cons_self, ?_, hdata, hroom, by omega, fun b _ => hframe b, hnodup, ?_⟩
  · have hlt := (hspare.free front List.mem_cons_self).1
    omega
  · intro b hb
    exact ⟨List.mem_cons_of_mem _ hb, fun heq => hnot (heq ▸ hb)⟩

/-- A new bucket. -/
theorem obtained_allocate (hspare : Spare arena array cache) (new : Bucket Entry)
    (hroom : new.data.length < new.capacity) :
    Obtained arena cache arena.top (arena.allocate new) cache new.data := by
  refine ⟨Or.inr rfl, Nat.lt_succ_self _, ?_, ?_, Nat.le_succ _, ?_, hspare.nodup, ?_⟩
  · simp [BucketArena.allocate]
  · simpa [BucketArena.allocate] using hroom
  · intro b _ hne
    exact Function.update_of_ne hne _ _
  · intro b hb
    have hlt := (hspare.free b hb).1
    exact ⟨hb, by omega⟩

theorem newBucket_obtained (hspare : Spare arena array (cached.getD [])) :
    Obtained arena (cached.getD []) (newBucket arena cached).1 (newBucket arena cached).2.1
      ((newBucket arena cached).2.2.getD []) [] := by
  have hnew := obtained_allocate hspare ⟨1, []⟩ Nat.one_pos
  match cached with
  | none => exact hnew
  | some [] => exact hnew
  | some (front :: rest) =>
      obtain ⟨-, hcap, hempty, -⟩ := hspare.free front List.mem_cons_self
      exact obtained_front hspare rfl (fun _ _ => rfl) hempty hcap

theorem growBucket_obtained (h : Owned arena array) (hspare : Spare arena array (cached.getD []))
    (hbucket : array.getD slot none = some bucket) :
    Obtained arena (cached.getD []) (growBucket arena bucket cached).1
      (growBucket arena bucket cached).2.1 ((growBucket arena bucket cached).2.2.getD [])
      (arena.buckets bucket).data := by
  obtain ⟨-, hne, hfits⟩ := h.valid slot bucket hbucket
  have hpos := List.length_pos_of_ne_nil hne
  have hnew := obtained_allocate hspare
    ⟨(arena.buckets bucket).capacity * 2, (arena.buckets bucket).data⟩ (by dsimp only; omega)
  match cached with
  | none => exact hnew
  | some [] => exact hnew
  | some (front :: rest) =>
      simp only [growBucket]
      split
      · next hlarger =>
          refine obtained_front hspare rfl (fun b hb => Function.update_of_ne hb _ _) ?_ ?_
          · simp [BucketArena.set, Bucket.copyTo]
          · simp only [BucketArena.set, Function.update_self, Bucket.copyTo]
            omega
      · exact hnew

theorem placeBucket_changed (h : Owned arena array) (hspare : Spare arena array (cached.getD []))
    (hslot : slot < array.length) {out : ℕ × BucketArena Entry × Option (List ℕ)}
    (hob : Obtained arena (cached.getD []) out.1 out.2.1 (out.2.2.getD []) data) :
    Changed arena array (cached.getD []) (placeBucket array slot entry out).1
      (placeBucket array slot entry out).2.1 ((placeBucket array slot entry out).2.2.getD []) slot
      (data ++ [entry]) := by
  have hroom := hob.room
  have hpush : (out.2.1.buckets out.1).pushBack entry =
      some { out.2.1.buckets out.1 with data := data ++ [entry] } := by
    unfold Bucket.pushBack
    rw [hob.holds, if_pos (by omega)]
  simp only [placeBucket, hpush, Option.getD_some]
  exact h.place hspare hslot hob _ rfl rfl

variable [DecidableEq Key] {layout : Layout Key Entry} {hash : Key → ℕ}

def upsert (layout : Layout Key Entry) (chain : List Entry) (entry : Entry) : List Entry :=
  match chain.findIdx? fun old => decide (layout.key entry = layout.key old) with
  | some idx => chain.modify idx fun old => layout.overwrite old entry
  | none => chain ++ [entry]

/-- **`put_to`** changes the chain of the key and nothing else of the table. -/
theorem putTo_changed (layout : Layout Key Entry) (hash : Key → ℕ) (entry : Entry)
    (h : Owned arena array) (hspare : Spare arena array (cached.getD []))
    (hslot : arraySlot hash array (layout.key entry) < array.length) :
    Changed arena array (cached.getD []) (putTo layout hash arena array entry cached).1
      (putTo layout hash arena array entry cached).2.1
      ((putTo layout hash arena array entry cached).2.2.getD [])
      (arraySlot hash array (layout.key entry))
      (upsert layout (chain arena array (arraySlot hash array (layout.key entry))) entry) := by
  generalize hs : arraySlot hash array (layout.key entry) = slot at hslot ⊢
  cases hbucket : array.getD slot none with
  | none =>
      have hcode : putTo layout hash arena array entry cached =
          placeBucket array slot entry (newBucket arena cached) := by
        simp only [putTo, hs, hbucket]
      rw [hcode, chain_of_none hbucket]
      exact placeBucket_changed h hspare hslot (newBucket_obtained hspare)
  | some bucket =>
      obtain ⟨-, hne, hfits⟩ := h.valid slot bucket hbucket
      rw [chain_of_some hbucket]
      cases hidx : locate layout (arena.buckets bucket) (layout.key entry) with
      | some idx =>
          have hcode : putTo layout hash arena array entry cached =
              (arena.set bucket ⟨(arena.buckets bucket).capacity, (arena.buckets bucket).data.modify
                idx fun old => layout.overwrite old entry⟩, array, cached) := by
            simp only [putTo, hs, hbucket, hidx]
          have hupsert : upsert layout (arena.buckets bucket).data entry =
              (arena.buckets bucket).data.modify idx fun old => layout.overwrite old entry := by
            unfold locate at hidx
            simp only [upsert, hidx]
          rw [hcode, hupsert]
          exact h.set hspare hbucket _ (by simpa using hne) (by simpa using hfits)
      | none =>
          have hupsert : upsert layout (arena.buckets bucket).data entry =
              (arena.buckets bucket).data ++ [entry] := by
            unfold locate at hidx
            simp only [upsert, hidx]
          rw [hupsert]
          cases hpush : (arena.buckets bucket).pushBack entry with
          | some pushed =>
              have hcode : putTo layout hash arena array entry cached =
                  (arena.set bucket pushed, array, cached) := by
                simp only [putTo, hs, hbucket, hidx, hpush]
              obtain ⟨hroom, hpushed⟩ := Option.ite_none_right_eq_some.mp hpush
              obtain rfl := Option.some.inj hpushed
              rw [hcode]
              exact h.set hspare hbucket _ (by simp) (by simpa using hroom)
          | none =>
              have hcode : putTo layout hash arena array entry cached =
                  placeBucket array slot entry (growBucket arena bucket cached) := by
                simp only [putTo, hs, hbucket, hidx, hpush]
              rw [hcode]
              exact placeBucket_changed h hspare hslot (growBucket_obtained h hspare hbucket)

end PutTo

variable {layout : Layout Key Entry} {hash : Key → ℕ} {n : ℕ}

def slotOf (hash : Key → ℕ) (n : ℕ) (key : Key) : ℕ :=
  hash key &&& (n - 1)

theorem slotOf_lt (hash : Key → ℕ) {n : ℕ} (hn : ∃ k, n = 2 ^ k) (key : Key) :
    slotOf hash n key < n := by
  obtain ⟨k, rfl⟩ := hn
  unfold slotOf
  rw [Nat.and_two_pow_sub_one_eq_mod]
  exact Nat.mod_lt _ (Nat.two_pow_pos k)

theorem arraySlot_eq (h : array.length = n) (key : Key) :
    arraySlot hash array key = slotOf hash n key := by
  rw [arraySlot, slotOf, h]

structure Good (layout : Layout Key Entry) (hash : Key → ℕ) (n : ℕ) (arena : BucketArena Entry)
    (array : List (Option ℕ)) : Prop where
  pow : ∃ k, n = 2 ^ k
  length : array.length = n
  owned : Owned arena array
  placed : Placed layout.key (slotOf hash n) n (chain arena array)

abbrev entries (arena : BucketArena Entry) (array : List (Option ℕ)) : List Entry :=
  allChains array.length (chain arena array)

theorem Good.mem_iff (h : Good layout hash n arena array) :
    entry ∈ entries arena array ↔ entry ∈ chain arena array (slotOf hash n (layout.key entry)) := by
  have hmem := h.placed.mem_iff (slotOf_lt hash h.pow (layout.key entry))
  rwa [entries, h.length]

theorem Good.keys_nodup (h : Good layout hash n arena array) :
    ((entries arena array).map layout.key).Nodup := by
  have hnodup := h.placed.keys_nodup
  rwa [entries, h.length]

theorem Good.changed (h : Good layout hash n arena array) {s : ℕ}
    (hch : Changed arena array cache arena' array' cache' s data)
    (hslot : ∀ e ∈ data, slotOf hash n (layout.key e) = s) (hnodup : (data.map layout.key).Nodup) :
    Good layout hash n arena' array' where
  pow := h.pow
  length := hch.length.trans h.length
  owned := hch.owned
  placed := by
    rw [hch.chain]
    exact h.placed.update hslot hnodup

variable [DecidableEq Key]

theorem upsert_of_absent {chain : List Entry}
    (h : ∀ old ∈ chain, layout.key old ≠ layout.key entry) :
    upsert layout chain entry = chain ++ [entry] := by
  have hnone : (chain.findIdx? fun old => decide (layout.key entry = layout.key old)) = none := by
    rw [List.findIdx?_eq_none_iff]
    intro old hold
    simpa using Ne.symm (h old hold)
  simp only [upsert, hnone]

/-- An overwritten entry keeps its place and its key. -/
theorem upsert_of_present {chain : List Entry}
    (h : ∃ old ∈ chain, layout.key old = layout.key entry) :
    (upsert layout chain entry).map layout.key = chain.map layout.key := by
  obtain ⟨old, hold, hkey⟩ := h
  have hsome : (chain.findIdx? fun old => decide (layout.key entry = layout.key old)).isSome := by
    rw [List.findIdx?_isSome, List.any_eq_true]
    exact ⟨old, hold, by simpa using hkey.symm⟩
  obtain ⟨idx, hidx⟩ := Option.isSome_iff_exists.mp hsome
  obtain ⟨hlt, hfound, -⟩ := List.findIdx?_eq_some_iff_getElem.mp hidx
  have hfound : layout.key entry = layout.key chain[idx] := by simpa using hfound
  simp only [upsert, hidx]
  refine List.ext_getElem? fun i => ?_
  rw [List.getElem?_map, List.getElem?_map, List.getElem?_modify]
  by_cases heq : idx = i
  · subst heq
    rw [List.getElem?_eq_getElem hlt]
    simp [layout.overwrite_eq _ _ hfound.symm, hfound]
  · simp [heq]

structure Moved (layout : Layout Key Entry) (hash : Key → ℕ) (n : ℕ) (arena : BucketArena Entry)
    (array : List (Option ℕ)) (cache : List ℕ) (arena' : BucketArena Entry)
    (array' : List (Option ℕ)) (cache' : List ℕ) (put : List Entry) : Prop where
  good : Good layout hash n arena' array'
  spare : Spare arena' array' cache'
  perm : entries arena' array' ~ put ++ entries arena array
  top : arena.top ≤ arena'.top
  frame : ∀ b < arena.top, b ∉ cache → (∀ s, array.getD s none ≠ some b) →
    arena'.buckets b = arena.buckets b ∧ b ∉ cache' ∧ ∀ s, array'.getD s none ≠ some b

theorem Good.putTo_absent (h : Good layout hash n arena array) {cached : Option (List ℕ)}
    (hspare : Spare arena array (cached.getD []))
    (habsent : ∀ old ∈ entries arena array, layout.key old ≠ layout.key entry) :
    Moved layout hash n arena array (cached.getD []) (putTo layout hash arena array entry cached).1
      (putTo layout hash arena array entry cached).2.1
      ((putTo layout hash arena array entry cached).2.2.getD []) [entry] := by
  have hslot := slotOf_lt hash h.pow (layout.key entry)
  have hch := putTo_changed layout hash entry h.owned hspare
    (by rw [arraySlot_eq h.length, h.length]; exact hslot)
  rw [arraySlot_eq h.length] at hch
  have habsent' : ∀ old ∈ chain arena array (slotOf hash n (layout.key entry)),
      layout.key old ≠ layout.key entry := by
    intro old hold
    refine habsent old (mem_allChains.mpr ⟨_, ?_, hold⟩)
    rw [h.length]
    exact hslot
  rw [upsert_of_absent habsent'] at hch
  have hgood : Good layout hash n _ _ := h.changed hch
    (by
      intro e he
      rcases List.mem_append.mp he with he | he
      · exact h.placed.slot_eq _ hslot e he
      · rw [List.mem_singleton.mp he])
    (by
      rw [List.map_append, List.map_singleton, List.nodup_append_comm, List.singleton_append,
        List.nodup_cons]
      refine ⟨fun hmem => ?_, h.placed.nodup _ hslot⟩
      obtain ⟨old, hold, heq⟩ := List.mem_map.mp hmem
      exact habsent' old hold heq)
  refine ⟨hgood, hch.spare, ?_, hch.top, hch.frame⟩
  rw [entries, entries, hch.length, h.length, hch.chain]
  exact allChains_append_perm _ hslot entry

omit [DecidableEq Key] in
theorem Moved.refl (h : Good layout hash n arena array) (hspare : Spare arena array cache) :
    Moved layout hash n arena array cache arena array cache [] :=
  ⟨h, hspare, List.Perm.refl _, Nat.le_refl _, fun _ _ hcache hfree => ⟨rfl, hcache, hfree⟩⟩

/-- The inner loop of `rehash`. -/
theorem Good.putAll (tmp : List Entry) (h : Good layout hash n arena array)
    {cached : Option (List ℕ)} (hspare : Spare arena array (cached.getD []))
    (hnodup : ((tmp ++ entries arena array).map layout.key).Nodup) :
    Moved layout hash n arena array (cached.getD [])
      (tmp.foldl (fun state entry => putTo layout hash state.1 state.2.1 entry state.2.2)
        (arena, array, cached)).1
      (tmp.foldl (fun state entry => putTo layout hash state.1 state.2.1 entry state.2.2)
        (arena, array, cached)).2.1
      ((tmp.foldl (fun state entry => putTo layout hash state.1 state.2.1 entry state.2.2)
        (arena, array, cached)).2.2.getD []) tmp.reverse := by
  induction tmp generalizing arena array cached with
  | nil => exact Moved.refl h hspare
  | cons entry tmp ih =>
      rw [List.cons_append, List.map_cons, List.nodup_cons] at hnodup
      obtain ⟨hfresh, hnodup⟩ := hnodup
      have habsent : ∀ old ∈ entries arena array, layout.key old ≠ layout.key entry := by
        intro old hold heq
        exact hfresh (List.mem_map.mpr ⟨old, List.mem_append_right _ hold, heq⟩)
      have hput := h.putTo_absent hspare habsent
      have hperm := hput.perm
      have hnodup' : ((tmp ++ entries (putTo layout hash arena array entry cached).1
          (putTo layout hash arena array entry cached).2.1).map layout.key).Nodup := by
        have hall : tmp ++ entries (putTo layout hash arena array entry cached).1
            (putTo layout hash arena array entry cached).2.1 ~ entry :: (tmp ++ entries arena array) :=
          (hperm.append_left tmp).trans List.perm_middle
        rw [(hall.map layout.key).nodup_iff, List.map_cons, List.nodup_cons]
        exact ⟨hfresh, hnodup⟩
      have hrest := ih hput.good hput.spare hnodup'
      rw [List.foldl_cons]
      refine ⟨hrest.good, hrest.spare, ?_, Nat.le_trans hput.top hrest.top, ?_⟩
      · rw [List.reverse_cons, List.append_assoc]
        exact hrest.perm.trans (hperm.append_left _)
      · intro b hb hcache hfree
        obtain ⟨heq, hcache', hfree'⟩ := hput.frame b hb hcache hfree
        obtain ⟨heq', hrest'⟩ := hrest.frame b (Nat.lt_of_lt_of_le hb hput.top) hcache' hfree'
        exact ⟨heq'.trans heq, hrest'⟩

structure Waiting (old arena : BucketArena Entry) (array : List (Option ℕ)) (cache : List ℕ)
    (values : List (Option ℕ)) : Prop where
  nodup : (values.filterMap id).Nodup
  outside : ∀ b ∈ values.filterMap id, b < arena.top ∧ 0 < (old.buckets b).capacity ∧ b ∉ cache ∧
    (∀ s, array.getD s none ≠ some b) ∧ arena.buckets b = old.buckets b

def pointed (arena : BucketArena Entry) (values : List (Option ℕ)) : List Entry :=
  values.flatMap fun value =>
    match value with
    | none => []
    | some bucket => (arena.buckets bucket).data

/-- One bucket of the old array is moved. -/
theorem Good.rehashBucket (h : Good layout hash n arena array) (hspare : Spare arena array cache)
    {old : BucketArena Entry} {value : Option ℕ} {values : List (Option ℕ)}
    (hwait : Waiting old arena array cache (value :: values))
    (hnodup : ((pointed old [value] ++ entries arena array).map layout.key).Nodup) :
    ∃ arena' array' cache',
      LinkedTable.rehashBucket layout hash (arena, array, cache) value = (arena', array', cache') ∧
      Good layout hash n arena' array' ∧ Spare arena' array' cache' ∧
      Waiting old arena' array' cache' values ∧
      entries arena' array' ~ pointed old [value] ++ entries arena array := by
  cases value with
  | none => exact ⟨arena, array, cache, rfl, h, hspare, ⟨hwait.nodup, hwait.outside⟩, List.Perm.refl _⟩
  | some bucket =>
      obtain ⟨hlt, hcap, hcache, hfree, hsame⟩ := hwait.outside bucket List.mem_cons_self
      obtain ⟨hnot, hrest⟩ := List.nodup_cons.mp hwait.nodup
      have hpointed : pointed old [some bucket] = (arena.buckets bucket).data := by
        simp [pointed, hsame]
      rw [hpointed] at hnodup ⊢
      have hmoved := h.putAll (arena.buckets bucket).data
        (show Spare arena array ((some cache).getD []) from hspare) hnodup
      generalize hout : (arena.buckets bucket).data.foldl (fun state entry =>
        putTo layout hash state.1 state.2.1 entry state.2.2) (arena, array, some cache) = out at hmoved
      obtain ⟨heq, hcache', hfree'⟩ := hmoved.frame bucket hlt hcache hfree
      have hlt' : bucket < out.1.top := Nat.lt_of_lt_of_le hlt hmoved.top
      -- clearing the old bucket changes no chain: it is in no slot of the new array
      have hchain : chain (out.1.set bucket (out.1.buckets bucket).clear) out.2.1 =
          chain out.1 out.2.1 := by
        funext s
        cases hs : out.2.1.getD s none with
        | none => rw [chain_of_none hs, chain_of_none hs]
        | some b =>
            have hne : b ≠ bucket := fun heq => hfree' s (heq ▸ hs)
            rw [chain_of_some hs, chain_of_some hs]
            simp [BucketArena.set, Function.update_of_ne hne]
      refine ⟨out.1.set bucket (out.1.buckets bucket).clear, out.2.1, out.2.2.getD [] ++ [bucket],
        ?_, ⟨h.pow, hmoved.good.length, ⟨hmoved.good.owned.distinct, ?_⟩, ?_⟩, ⟨?_, ?_⟩, ⟨hrest, ?_⟩, ?_⟩
      · simp only [LinkedTable.rehashBucket, hout]
      · intro s b hs
        have hne : b ≠ bucket := fun heq => hfree' s (heq ▸ hs)
        simpa [BucketArena.set, Function.update_of_ne hne] using hmoved.good.owned.valid s b hs
      · rw [hchain]
        exact hmoved.good.placed
      · rw [List.nodup_append_comm, List.singleton_append, List.nodup_cons]
        exact ⟨hcache', hmoved.spare.nodup⟩
      · intro b hb
        rcases List.mem_append.mp hb with hb | hb
        · have hne : b ≠ bucket := fun heq => hcache' (heq ▸ hb)
          simpa [BucketArena.set, Function.update_of_ne hne] using hmoved.spare.free b hb
        · obtain rfl := List.mem_singleton.mp hb
          refine ⟨hlt', ?_, ?_, hfree'⟩
          · simpa [BucketArena.set, Bucket.clear, heq, hsame] using hcap
          · simp [BucketArena.set, Bucket.clear]
      · intro b hb
        have hne : b ≠ bucket := fun heq => hnot (heq ▸ hb)
        obtain ⟨hblt, hbcap, hbcache, hbfree, hbsame⟩ := hwait.outside b (List.mem_cons_of_mem _ hb)
        obtain ⟨hbeq, hbcache', hbfree'⟩ := hmoved.frame b hblt hbcache hbfree
        refine ⟨Nat.lt_of_lt_of_le hblt hmoved.top, hbcap, ?_, hbfree', ?_⟩
        · simp [hbcache', hne]
        · simp only [BucketArena.set]
          rw [Function.update_of_ne hne, hbeq, hbsame]
      · rw [entries, hchain]
        exact hmoved.perm.trans ((List.reverse_perm _).append_right _)

theorem pointed_cons (arena : BucketArena Entry) (value : Option ℕ) (values : List (Option ℕ)) :
    pointed arena (value :: values) = pointed arena [value] ++ pointed arena values := by
  simp [pointed]

/-- The outer loop of `rehash`. -/
theorem Good.rehashAll {old : BucketArena Entry} (values : List (Option ℕ))
    (h : Good layout hash n arena array) (hspare : Spare arena array cache)
    (hwait : Waiting old arena array cache values)
    (hnodup : ((pointed old values ++ entries arena array).map layout.key).Nodup) :
    Good layout hash n (values.foldl (LinkedTable.rehashBucket layout hash) (arena, array, cache)).1
        (values.foldl (LinkedTable.rehashBucket layout hash) (arena, array, cache)).2.1 ∧
      entries (values.foldl (LinkedTable.rehashBucket layout hash) (arena, array, cache)).1
          (values.foldl (LinkedTable.rehashBucket layout hash) (arena, array, cache)).2.1 ~
        pointed old values ++ entries arena array := by
  induction values generalizing arena array cache with
  | nil => exact ⟨h, List.Perm.refl _⟩
  | cons value values ih =>
      rw [pointed_cons, List.append_assoc] at hnodup
      have hall : pointed old [value] ++ (pointed old values ++ entries arena array) ~
          pointed old values ++ (pointed old [value] ++ entries arena array) := by
        rw [← List.append_assoc, ← List.append_assoc]
        exact List.perm_append_comm.append_right _
      rw [(hall.map layout.key).nodup_iff] at hnodup
      have hone : ((pointed old [value] ++ entries arena array).map layout.key).Nodup := by
        rw [List.map_append] at hnodup
        exact hnodup.of_append_right
      obtain ⟨arena', array', cache', hcode, hgood, hspare', hwait', hperm⟩ :=
        h.rehashBucket hspare hwait hone
      have hnext : ((pointed old values ++ entries arena' array').map layout.key).Nodup := by
        rwa [((hperm.append_left _).map layout.key).nodup_iff]
      obtain ⟨hgood', hperm'⟩ := ih hgood hspare' hwait' hnext
      rw [List.foldl_cons, hcode, pointed_cons, List.append_assoc]
      exact ⟨hgood', hperm'.trans ((hperm.append_left _).trans hall.symm)⟩

omit [DecidableEq Key] in
theorem pointed_eq_entries (arena : BucketArena Entry) (array : List (Option ℕ)) :
    pointed arena array = entries arena array := by
  have harray : (List.range array.length).map (fun s => array.getD s none) = array := by
    refine List.ext_getElem (by simp) fun i hi hi' => ?_
    simp [List.getD_eq_getElem?_getD, List.getElem?_eq_getElem hi']
  unfold pointed entries allChains
  nth_rewrite 1 [← harray]
  rw [List.flatMap_map]
  rfl

theorem Owned.waiting (h : Owned arena array) (m : ℕ) :
    Waiting arena arena (List.replicate m none) [] array where
  nodup := by
    rw [List.Nodup, List.pairwise_filterMap, List.pairwise_iff_getElem]
    intro i j hi hj hlt b hb b' hb' heq
    subst heq
    have hslot : ∀ k (hk : k < array.length), id array[k] = some b → array.getD k none = some b := by
      intro k hk hk'
      rw [List.getD_eq_getElem?_getD, List.getElem?_eq_getElem hk]
      simpa using hk'
    have := h.distinct i j b (hslot i hi hb) (hslot j hj hb')
    omega
  outside := by
    intro b hb
    obtain ⟨value, hmem, hvalue⟩ := List.mem_filterMap.mp hb
    obtain ⟨s, hs, rfl⟩ := List.mem_iff_getElem.mp hmem
    have hslot : array.getD s none = some b := by
      rw [List.getD_eq_getElem?_getD, List.getElem?_eq_getElem hs]
      simpa using hvalue
    obtain ⟨hlt, hne, hfits⟩ := h.valid s b hslot
    have hpos := List.length_pos_of_ne_nil hne
    refine ⟨hlt, by omega, List.not_mem_nil, fun s' hs' => ?_, rfl⟩
    simp [List.getD_eq_getElem?_getD, List.getElem?_replicate] at hs'
    split at hs' <;> simp at hs'

omit [DecidableEq Key] in
/-- An array of null pointers. -/
theorem good_replicate (layout : Layout Key Entry) (hash : Key → ℕ) (arena : BucketArena Entry)
    {m : ℕ} (hm : ∃ k, m = 2 ^ k) : Good layout hash m arena (List.replicate m none) := by
  have hnone : ∀ s, (List.replicate m (none : Option ℕ)).getD s none = none := by
    intro s
    rw [List.getD_eq_getElem?_getD, List.getElem?_replicate]
    split <;> rfl
  have hchain : chain arena (List.replicate m none) = fun _ => [] := by
    funext s
    exact chain_of_none (hnone s)
  refine ⟨hm, List.length_replicate, ⟨?_, ?_⟩, ?_⟩
  · intro s s' b hs
    rw [hnone] at hs
    cases hs
  · intro s b hs
    rw [hnone] at hs
    cases hs
  · rw [hchain]
    exact Placed.nil

/-- **`rehash`** moves the entries to an array of another size. -/
theorem Good.rehash (h : Good layout hash n arena array) {m : ℕ} (hm : ∃ k, m = 2 ^ k) :
    Good layout hash m (LinkedTable.rehash layout hash arena array m).1
        (LinkedTable.rehash layout hash arena array m).2 ∧
      entries (LinkedTable.rehash layout hash arena array m).1
        (LinkedTable.rehash layout hash arena array m).2 ~ entries arena array := by
  have hempty : entries arena (List.replicate m none) = [] := by
    rw [← pointed_eq_entries]
    simp [pointed]
  have hnodup : ((pointed arena array ++ entries arena (List.replicate m none)).map
      layout.key).Nodup := by
    rw [hempty, List.append_nil, pointed_eq_entries]
    exact h.keys_nodup
  have hspare : Spare arena (List.replicate m none) [] :=
    ⟨List.nodup_nil, fun b hb => absurd hb List.not_mem_nil⟩
  have hall := (good_replicate layout hash arena hm).rehashAll array hspare (h.owned.waiting m) hnodup
  rw [hempty, List.append_nil, pointed_eq_entries] at hall
  exact hall

end Memoria.LinkedTable

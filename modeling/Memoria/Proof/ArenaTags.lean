import Memoria.ArenaTags
import Memoria.Proof.ArenaBuffer

/-!
# Objects and tags in an arena

Allocated objects are aligned, lie in disjoint ranges, and keep their contents and tags whatever is
done to others. A tag is read as it was set just where it is short: `ldd_get_tag` takes the highest
byte of a long one off, and `ld_tag_value` has it.
-/

namespace Memoria.LDArena

open Lib

theorem alignUp_spec (value k : ℕ) :
    2 ^ k ∣ LinkedArena.alignUp value (2 ^ k) ∧ value ≤ LinkedArena.alignUp value (2 ^ k) := by
  have hpos : 0 < 2 ^ k := Nat.two_pow_pos k
  rw [LinkedArena.alignUp, Nat.and_two_pow_sub_one_eq_mod]
  by_cases hmod : value % 2 ^ k = 0
  · rw [if_pos hmod]
    exact ⟨Nat.dvd_of_mod_eq_zero hmod, le_rfl⟩
  · rw [if_neg hmod]
    have hor : (value ||| (2 ^ k - 1)) % 2 ^ k = 2 ^ k - 1 := by
      rw [Nat.or_mod_two_pow, Nat.mod_eq_of_lt (Nat.sub_one_lt hpos.ne')]
      refine Nat.eq_of_testBit_eq ?_
      intro i
      rw [Nat.testBit_or, Nat.testBit_two_pow_sub_one, Nat.testBit_mod_two_pow]
      by_cases hi : i < k <;> simp [hi]
    refine ⟨?_, (Nat.left_le_or).trans (Nat.le_succ _)⟩
    refine Nat.dvd_of_mod_eq_zero ?_
    rw [Nat.add_mod, hor]
    rcases Nat.eq_or_lt_of_le (Nat.one_le_iff_ne_zero.mpr hpos.ne') with hone | hmore
    · rw [← hone]
    · rw [Nat.mod_eq_of_lt hmore, Nat.sub_add_cancel hpos, Nat.mod_self]

/-- The padding of the loop is enough for the tag. -/
theorem addPadding_spec {alignment : ℕ} (hpos : 0 < alignment) (tagSize addr upsize : ℕ)
    (haddr : alignment ∣ addr) :
    let padded := addPadding alignment tagSize addr upsize
    alignment ∣ padded.1 ∧ tagSize ≤ padded.2 ∧ padded.1 + upsize = addr + padded.2 := by
  induction addr, upsize using addPadding.induct alignment tagSize with
  | case1 addr upsize hloop ih =>
      rw [addPadding, dif_pos hloop]
      have hrest := ih ((Nat.dvd_add_right haddr).mpr dvd_rfl)
      exact ⟨hrest.1, hrest.2.1, by grind⟩
  | case2 addr upsize hloop =>
      rw [addPadding, dif_neg hloop]
      exact ⟨haddr, by grind, rfl⟩

section Create

variable (memory : ℕ → BitVec 8)

abbrev Kept (arena : ArenaBuffer (BitVec 8)) : Prop := arena.Honest (arena.block.take arena.size)

theorem kept_of_honest {arena : ArenaBuffer (BitVec 8)} {content : List (BitVec 8)}
    (harena : arena.Honest content) : Kept arena := by
  rw [Kept, harena.take_eq]
  exact harena

theorem Kept.size_le_length {arena : ArenaBuffer (BitVec 8)} (harena : Kept arena) :
    arena.size ≤ arena.block.length := harena.size_le.trans harena.capacity_le

/-- Memory that is written within the size. -/
theorem Kept.of_length {arena : ArenaBuffer (BitVec 8)} (harena : Kept arena)
    {block : List (BitVec 8)} (hlength : block.length = arena.block.length) :
    Kept { arena with block := block } := by
  refine ⟨rfl, ?_, harena.size_le, harena.capacity_le.trans hlength.ge⟩
  change arena.size = (block.take arena.size).length
  rw [List.length_take_of_le (harena.size_le_length.trans hlength.ge)]

/-- The new space is aligned, lies behind what there was with room for the tag in front of it, and
nothing else has changed. -/
theorem allocateSpace_spec {arena : ArenaBuffer (BitVec 8)} (harena : Kept arena)
    (request : Request) :
    ∃ addr allocated, allocateSpace memory request arena = some (addr, allocated) ∧
      request.alignment ∣ addr ∧ arena.size + request.tagSize ≤ addr ∧
      addr + request.size = allocated.size ∧ Kept allocated ∧
      allocated.block.take arena.size = arena.block.take arena.size := by
  obtain ⟨k, hk⟩ := request.alignment_eq
  have hpos : 0 < request.alignment := hk ▸ Nat.two_pow_pos k
  have hup := alignUp_spec arena.size k
  rw [← hk] at hup
  have hpad := addPadding_spec hpos request.tagSize _
    (LinkedArena.alignUp arena.size request.alignment - arena.size) hup.1
  set padded := addPadding request.alignment request.tagSize
    (LinkedArena.alignUp arena.size request.alignment)
    (LinkedArena.alignUp arena.size request.alignment - arena.size) with hpadded
  obtain ⟨ensured, hensured, hhonest, hcapacity⟩ :=
    harena.ensure memory (padded.2 + request.size)
  have hsame : ensured.size = arena.size := hhonest.size_eq.trans harena.size_eq.symm
  have hfits : ensured.size + (padded.2 + request.size) ≤ ensured.capacity := by
    rw [hsame, harena.size_eq]
    exact hcapacity
  refine ⟨padded.1, ensured.addSize (padded.2 + request.size), ?_, hpad.1, by omega, ?_, ?_, ?_⟩
  · rw [allocateSpace, hensured]
    rfl
  · change _ = ensured.size + _
    omega
  · exact kept_of_honest (hhonest.addSize hfits)
  · rw [← hhonest.take_eq, hsame]
    rfl

theorem create_spec (initialArenaSize : ℕ) (header : List (BitVec 8)) :
    ∃ arena, create memory initialArenaSize header = some arena ∧ Kept arena ∧
      arena.size = header.length ∧ arena.block.take header.length = header := by
  have hnew : (⟨allocateBuffer memory initialArenaSize, initialArenaSize, 0⟩ :
      ArenaBuffer (BitVec 8)).Honest [] :=
    ArenaBuffer.honest_make memory (.ofCapacity initialArenaSize)
  obtain ⟨ensured, hensured, hhonest, hcapacity⟩ := hnew.ensure memory header.length
  have hempty : ensured.size = 0 := hhonest.size_eq
  rw [List.length_nil, Nat.zero_add] at hcapacity
  have hspace : ensured.size + header.length ≤ ensured.capacity := by omega
  have hadded := hhonest.addSize hspace
  have hfits : 0 + header.length ≤ ensured.block.length := by
    have hallocated := hhonest.capacity_le
    omega
  refine ⟨{ ensured.addSize header.length with
    block := ensured.block.take 0 ++ (header ++ ensured.block.drop (0 + header.length)) },
    ?_, ?_, ?_, ?_⟩
  · rw [create, hensured, Option.bind_eq_bind, Option.bind_some, storeBuffer_of_le hfits]
    rfl
  · exact (kept_of_honest hadded).of_length (length_store hfits)
  · exact (congrArg (· + header.length) hempty).trans (Nat.zero_add _)
  · exact (congrArg (fun n => List.take n _) (Nat.zero_add header.length).symm).trans
      (take_store hfits)

end Create

theorem longTag_top (code : BitVec 64) : (longTag code).extractLsb' 56 8 = 250#8 := by
  rw [longTag, BitVec.extractLsb'_or, BitVec.extractLsb'_and]
  have hmask : (0xFFFFFFFFFFFFFF#64).extractLsb' 56 8 = 0#8 := by decide
  rw [hmask, BitVec.and_zero]
  decide

theorem longTag_not_short (code : BitVec 64) : ¬ longTag code < 250#64 := by
  intro hshort
  have htop := congrArg BitVec.toNat (longTag_top code)
  rw [BitVec.extractLsb'_toNat, Nat.shiftRight_eq_div_pow] at htop
  have hlt : (longTag code).toNat < 250 := hshort
  rw [Nat.div_eq_of_lt (hlt.trans (by decide))] at htop
  exact absurd htop (by decide)

theorem and_mask_ne_longTag (x code : BitVec 64) : x &&& 0xFFFFFFFFFFFFFF#64 ≠ longTag code := by
  intro heq
  have htop := longTag_top code
  rw [← heq, BitVec.extractLsb'_and] at htop
  have hmask : (0xFFFFFFFFFFFFFF#64).extractLsb' 56 8 = 0#8 := by decide
  rw [hmask, BitVec.and_zero] at htop
  exact absurd htop (by decide)

theorem setWidth_of_short {code : BitVec 64} (hshort : code < 250#64) :
    (code.setWidth 8) < 250#8 ∧ (code.setWidth 8).setWidth 64 = code := by
  have hlt : code.toNat < 250 := hshort
  have hbyte : (code.setWidth 8).toNat = code.toNat := by
    rw [BitVec.toNat_setWidth, Nat.mod_eq_of_lt (hlt.trans (by decide))]
  constructor
  · rw [BitVec.lt_def, hbyte]
    exact hlt
  · refine BitVec.eq_of_toNat_eq ?_
    rw [BitVec.toNat_setWidth, hbyte, Nat.mod_eq_of_lt (hlt.trans (by decide))]

theorem length_wordBytes (word : BitVec 64) : (wordBytes word).length = 8 := by
  rw [wordBytes, List.length_map, List.length_range]

theorem getD_wordBytes (word : BitVec 64) {i : ℕ} (hi : i < 8) :
    (wordBytes word).getD i 0#8 = word.extractLsb' (8 * i) 8 := by
  simp [wordBytes, List.getD_eq_getElem?_getD, hi]

theorem ofWordBytes_wordBytes (word : BitVec 64) : ofWordBytes (wordBytes word) = word := by
  have hnumber : limbsNumber (fun i => (wordBytes word).getD i 0#8) 8 = word.toNat := by
    calc limbsNumber (fun i => (wordBytes word).getD i 0#8) 8
        = limbsNumber (fun i => word.extractLsb' (8 * i) 8) 8 :=
          limbsNumber_congr fun i hi => getD_wordBytes word hi
      _ = word.toNat % 2 ^ 64 := limbsNumber_extractLsb' word 8
      _ = word.toNat := Nat.mod_eq_of_lt word.isLt
  rw [ofWordBytes, hnumber, BitVec.ofNat_toNat, BitVec.setWidth_eq]

theorem length_tagBytes (code : BitVec 64) : (tagBytes (tagValue code)).length = tagSize code := by
  by_cases hshort : code < 250#64
  · rw [tagValue, if_pos hshort, tagBytes, if_pos hshort, tagSize, if_pos hshort]
    rfl
  · rw [tagValue, if_neg hshort, tagBytes, if_neg (longTag_not_short code), length_wordBytes,
      tagSize, if_neg hshort]

theorem loadBelow_of_le {arena : ArenaBuffer (BitVec 8)} {ptr size : ℕ} (hsize : size ≤ ptr)
    (hptr : ptr ≤ arena.block.length) :
    loadBelow arena ptr size = some ((arena.block.drop (ptr - size)).take size) := by
  rw [loadBelow, if_pos hsize, loadBuffer, if_pos (by omega)]

theorem getTag_of_byte {arena : ArenaBuffer (BitVec 8)} {ptr : ℕ} {byte : BitVec 8}
    (hpos : 1 ≤ ptr) (hptr : ptr ≤ arena.block.length)
    (hbyte : (arena.block.drop (ptr - 1)).take 1 = [byte]) :
    getTag arena ptr = if byte < 250#8 then some (byte.setWidth 64)
      else (loadBelow arena ptr 8).bind fun long =>
        some (ofWordBytes long &&& 0xFFFFFFFFFFFFFF#64) := by
  rw [getTag, loadBelow_of_le hpos hptr, hbyte]
  rfl

/-- A tag that was set is read as it was set just where it is short. -/
theorem getTag_eq_iff {arena : ArenaBuffer (BitVec 8)} {ptr : ℕ} {code : BitVec 64}
    (hsize : tagSize code ≤ ptr) (hptr : ptr ≤ arena.block.length)
    (htag : (arena.block.drop (ptr - tagSize code)).take (tagSize code) =
      tagBytes (tagValue code)) :
    getTag arena ptr = some (tagValue code) ↔ code < 250#64 := by
  by_cases hshort : code < 250#64
  · refine iff_of_true ?_ hshort
    rw [tagSize, if_pos hshort] at hsize htag
    rw [tagValue, if_pos hshort] at htag ⊢
    rw [tagBytes, if_pos hshort] at htag
    have hbyte := setWidth_of_short hshort
    rw [getTag_of_byte hsize hptr htag, if_pos hbyte.1, hbyte.2]
  · refine iff_of_false ?_ hshort
    rw [tagSize, if_neg hshort] at hsize htag
    rw [tagValue, if_neg hshort] at htag ⊢
    rw [tagBytes, if_neg (longTag_not_short code)] at htag
    have hlast : (arena.block.drop (ptr - 1)).take 1 = [250#8] := by
      calc (arena.block.drop (ptr - 1)).take 1
          = ((arena.block.drop (ptr - 8)).take 8).drop 7 := by
            rw [List.drop_take, List.drop_drop]
            congr 2
            omega
        _ = [(longTag (longTag code)).extractLsb' 56 8] := by
            rw [htag]
            rfl
        _ = [250#8] := by rw [longTag_top]
    have hlong : ¬ (250#8 : BitVec 8) < 250#8 := by decide
    rw [getTag_of_byte (by omega) hptr hlast, if_neg hlong, loadBelow_of_le hsize hptr,
      Option.bind_some]
    intro hread
    exact and_mask_ne_longTag _ code (Option.some.inj hread)

theorem setTag_eq (ptr : ℕ) (tag : BitVec 64) (arena : ArenaBuffer (BitVec 8)) :
    setTag ptr tag arena = storeBelow arena ptr (tagBytes tag) := by
  rw [setTag, tagBytes]
  split <;> rfl

theorem Placed.of_grown {header : List (BitVec 8)} {arena grown : ArenaBuffer (BitVec 8)}
    {object : LDObject} (hplaced : Placed header arena object) (hsize : arena.size ≤ grown.size)
    (hfront : grown.block.take arena.size = arena.block.take arena.size) :
    Placed header grown object := by
  have hstop : object.addr + object.request.size ≤ arena.size := hplaced.stop_le
  have htag := hplaced.tag_le
  refine ⟨hplaced.aligned, htag, hplaced.le_start, hplaced.stop_le.trans hsize, ?_, ?_⟩
  · exact (take_drop_congr hfront hstop).trans hplaced.content_eq
  · intro code hcode
    refine ⟨(hplaced.tag_eq code hcode).1, ?_⟩
    have hbelow : object.start + object.request.tagSize ≤ arena.size := by
      rw [LDObject.start]
      omega
    exact (take_drop_congr hfront hbelow).trans (hplaced.tag_eq code hcode).2

/-- An object that is not where bytes are written. -/
theorem Placed.of_store {header : List (BitVec 8)} {arena : ArenaBuffer (BitVec 8)}
    {object : LDObject} (hplaced : Placed header arena object) {idx : ℕ}
    {values : List (BitVec 8)} (hidx : idx + values.length ≤ arena.block.length)
    (hdisjoint : object.stop ≤ idx ∨ idx + values.length ≤ object.start) :
    Placed header { arena with
      block := arena.block.take idx ++ (values ++ arena.block.drop (idx + values.length)) }
      object := by
  have htag := hplaced.tag_le
  rw [LDObject.start, LDObject.stop] at hdisjoint
  refine ⟨hplaced.aligned, htag, hplaced.le_start, hplaced.stop_le, ?_, ?_⟩
  · exact (take_drop_store_of_disjoint hidx (by omega)).trans hplaced.content_eq
  · intro code hcode
    refine ⟨(hplaced.tag_eq code hcode).1, ?_⟩
    rw [LDObject.start]
    exact (take_drop_store_of_disjoint hidx (by omega)).trans (hplaced.tag_eq code hcode).2

structure Inv (header : List (BitVec 8)) (session : ArenaSession) : Prop where
  laid : Laid header session
  kept : Kept session.arena
  header_le : header.length ≤ session.arena.size

theorem Inv.allocate {header : List (BitVec 8)} {session : ArenaSession}
    (hinv : Inv header session) (memory : ℕ → BitVec 8) (request : Request) :
    ∃ session', step memory session (.allocate request) = some session' ∧
      Inv header session' := by
  obtain ⟨⟨hheader, hplaced, hdisjoint⟩, hkept, hle⟩ := hinv
  obtain ⟨addr, allocated, hallocated, haligned, hstart, hstop, hkept', hfront⟩ :=
    allocateSpace_spec memory hkept request
  set object : LDObject :=
    ⟨addr, request, none, (allocated.block.drop addr).take request.size⟩ with hobject
  have hsizes : session.arena.size ≤ allocated.size := by omega
  have htag : request.tagSize ≤ addr := by omega
  refine ⟨⟨allocated, session.objects ++ [object]⟩, ?_, ⟨⟨?_, ?_, ?_⟩, hkept', ?_⟩⟩
  · simp only [step, ArenaOp.promised, if_true, hallocated, Option.map_some]
    rfl
  · have hsame := take_drop_congr (i := 0) hfront ((Nat.zero_add header.length).trans_le hle)
    exact hsame.trans hheader
  · intro other hother
    rcases List.mem_append.mp hother with hold | hnew
    · exact (hplaced other hold).of_grown hsizes hfront
    · obtain rfl := List.mem_singleton.mp hnew
      refine ⟨haligned, htag, ?_, hstop.le, rfl, fun code hcode => nomatch hcode⟩
      change header.length ≤ addr - request.tagSize
      omega
  · refine List.pairwise_append.mpr ⟨hdisjoint, List.pairwise_singleton _ _, ?_⟩
    intro other hother new hnew
    obtain rfl := List.mem_singleton.mp hnew
    refine .inl ((hplaced other hother).stop_le.trans ?_)
    change session.arena.size ≤ addr - request.tagSize
    omega
  · change header.length ≤ allocated.size
    omega

/-- Objects that are not the same one are in different places. -/
theorem Laid.disjoint_of_ne {header : List (BitVec 8)} {session : ArenaSession}
    (hlaid : Laid header session) {i j : ℕ} {a b : LDObject} (hne : i ≠ j)
    (ha : session.objects[i]? = some a) (hb : session.objects[j]? = some b) :
    a.stop ≤ b.start ∨ b.stop ≤ a.start := by
  obtain ⟨hi, hia⟩ := List.getElem?_eq_some_iff.mp ha
  obtain ⟨hj, hjb⟩ := List.getElem?_eq_some_iff.mp hb
  have hpairs := List.pairwise_iff_getElem.mp hlaid.disjoint
  rcases Nat.lt_or_gt_of_ne hne with hlt | hgt
  · have hpair := hpairs i j hi hj hlt
    rwa [hia, hjb] at hpair
  · have hpair := hpairs j i hj hi hgt
    rw [hia, hjb] at hpair
    exact hpair.symm

/-- Bytes are written to an object or its tag. -/
theorem Inv.store {header : List (BitVec 8)} {session : ArenaSession} (hinv : Inv header session)
    {i idx : ℕ} {object : LDObject} (stored : LDObject) {values : List (BitVec 8)}
    (hobject : session.objects[i]? = some object) (hstart : object.start ≤ idx)
    (hstop : idx + values.length ≤ object.stop) (hsame : stored.start = object.start)
    (hsame' : stored.stop = object.stop)
    (hstored : Placed header { session.arena with
      block := session.arena.block.take idx ++
        (values ++ session.arena.block.drop (idx + values.length)) } stored) :
    Inv header ⟨{ session.arena with
      block := session.arena.block.take idx ++
        (values ++ session.arena.block.drop (idx + values.length)) },
      session.objects.set i stored⟩ := by
  have hin := hinv.laid.placed object (List.mem_of_getElem? hobject)
  have hidx : idx + values.length ≤ session.arena.block.length :=
    (hstop.trans hin.stop_le).trans hinv.kept.size_le_length
  refine ⟨⟨?_, ?_, ?_⟩, hinv.kept.of_length (length_store hidx), hinv.header_le⟩
  · have hbelow := hin.le_start
    have hheader := hinv.laid.header_eq
    exact (take_drop_store_of_disjoint (i := 0) hidx (.inl (by omega))).trans hheader
  · intro other hother
    obtain ⟨j, hj⟩ := List.getElem?_of_mem hother
    rw [List.getElem?_set] at hj
    by_cases hij : i = j
    · rw [if_pos hij] at hj
      obtain rfl := Option.some.inj (Option.ite_none_right_eq_some.mp hj).2
      exact hstored
    · rw [if_neg hij] at hj
      have hapart := hinv.laid.disjoint_of_ne hij hobject hj
      refine (hinv.laid.placed other (List.mem_of_getElem? hj)).of_store hidx ?_
      omega
  · obtain ⟨hi, hget⟩ := List.getElem?_eq_some_iff.mp hobject
    have hranges : (session.objects.set i stored).map (fun o => (o.start, o.stop)) =
        session.objects.map fun o => (o.start, o.stop) := by
      calc (session.objects.set i stored).map (fun o => (o.start, o.stop))
          = (session.objects.map fun o => (o.start, o.stop)).set i (object.start, object.stop) := by
            rw [List.map_set, hsame, hsame']
        _ = (session.objects.set i object).map fun o => (o.start, o.stop) := List.map_set.symm
        _ = session.objects.map fun o => (o.start, o.stop) := by
            rw [← hget, List.set_getElem_self]
    have hpairs : (session.objects.map fun o => (o.start, o.stop)).Pairwise
        fun a b => a.2 ≤ b.1 ∨ b.2 ≤ a.1 := List.pairwise_map.mpr hinv.laid.disjoint
    rw [← hranges] at hpairs
    exact List.pairwise_map.mp hpairs

theorem Inv.setTag {header : List (BitVec 8)} {session : ArenaSession} (hinv : Inv header session)
    (memory : ℕ → BitVec 8) {i : ℕ} {code : BitVec 64}
    (hpromised : (ArenaOp.setTag i code).promised session = true) :
    ∃ session', step memory session (.setTag i code) = some session' ∧ Inv header session' := by
  obtain ⟨object, hobject, hdecide⟩ := (Option.any_eq_true _ _).mp hpromised
  have hsize : object.request.tagSize = tagSize code := of_decide_eq_true hdecide
  have hin := hinv.laid.placed object (List.mem_of_getElem? hobject)
  set bytes := tagBytes (tagValue code) with hbytes
  have hlength : bytes.length = object.request.tagSize := (length_tagBytes code).trans hsize.symm
  have hend : object.start + bytes.length = object.addr := by
    rw [hlength, LDObject.start, Nat.sub_add_cancel hin.tag_le]
  have hstop : object.start + bytes.length ≤ object.stop :=
    hend.trans_le (Nat.le_add_right _ _)
  have hidx : object.start + bytes.length ≤ session.arena.block.length :=
    (hstop.trans hin.stop_le).trans hinv.kept.size_le_length
  have hset : LDArena.setTag object.addr (tagValue code) session.arena = some { session.arena with
      block := session.arena.block.take object.start ++
        (bytes ++ session.arena.block.drop (object.start + bytes.length)) } := by
    have hbelow : object.addr - bytes.length = object.start := by rw [hlength, LDObject.start]
    rw [setTag_eq, ← hbytes, storeBelow, if_pos (hlength.trans_le hin.tag_le), hbelow,
      storeBuffer_of_le hidx]
    rfl
  refine ⟨_, ?_, hinv.store { object with code := some code } hobject le_rfl hstop rfl rfl ?_⟩
  · simp only [step, hpromised, if_true, hobject, Option.bind_some, hset, Option.map_some]
  · refine ⟨hin.aligned, hin.tag_le, hin.le_start, hin.stop_le, ?_, ?_⟩
    · exact (take_drop_store_of_disjoint hidx (.inr hend.le)).trans hin.content_eq
    · rintro _ ⟨⟩
      refine ⟨hsize, ?_⟩
      rw [← hlength]
      exact take_drop_store hidx

theorem Inv.write {header : List (BitVec 8)} {session : ArenaSession} (hinv : Inv header session)
    (memory : ℕ → BitVec 8) {i : ℕ} {content : List (BitVec 8)}
    (hpromised : (ArenaOp.write i content).promised session = true) :
    ∃ session', step memory session (.write i content) = some session' ∧
      Inv header session' := by
  obtain ⟨object, hobject, hdecide⟩ := (Option.any_eq_true _ _).mp hpromised
  have hlength : content.length = object.request.size := of_decide_eq_true hdecide
  have hin := hinv.laid.placed object (List.mem_of_getElem? hobject)
  have hstart : object.start + object.request.tagSize = object.addr :=
    Nat.sub_add_cancel hin.tag_le
  have hstop : object.addr + content.length ≤ object.stop := by
    rw [hlength, LDObject.stop]
  have hidx : object.addr + content.length ≤ session.arena.block.length :=
    (hstop.trans hin.stop_le).trans hinv.kept.size_le_length
  refine ⟨_, ?_, hinv.store { object with content := content } hobject (Nat.sub_le _ _) hstop
    rfl rfl ?_⟩
  · simp only [step, hpromised, if_true, hobject, Option.bind_some, storeBuffer_of_le hidx,
      Option.map_some]
  · refine ⟨hin.aligned, hin.tag_le, hin.le_start, hin.stop_le, ?_, ?_⟩
    · change ((_ : List (BitVec 8)).drop object.addr).take object.request.size = content
      rw [← hlength]
      exact take_drop_store hidx
    · intro code hcode
      refine ⟨(hin.tag_eq code hcode).1, ?_⟩
      exact (take_drop_store_of_disjoint hidx (.inl hstart.le)).trans (hin.tag_eq code hcode).2

/-- A promised operation goes through. -/
theorem Inv.next {header : List (BitVec 8)} {session : ArenaSession} (hinv : Inv header session)
    (memory : ℕ → BitVec 8) {op : ArenaOp} (hpromised : op.promised session = true) :
    ∃ session', step memory session op = some session' ∧ Inv header session' := by
  cases op with
  | allocate request => exact hinv.allocate memory request
  | setTag i code => exact hinv.setTag memory hpromised
  | write i content => exact hinv.write memory hpromised

theorem Inv.of_step {header : List (BitVec 8)} {session session' : ArenaSession}
    (hinv : Inv header session) {memory : ℕ → BitVec 8} {op : ArenaOp}
    (hstep : step memory session op = some session') : Inv header session' := by
  have hpromised : op.promised session = true := (Option.ite_none_right_eq_some.mp hstep).1
  obtain ⟨reached, hreached, hgood⟩ := hinv.next memory hpromised
  rwa [Option.some.inj (hreached.symm.trans hstep)] at hgood

def ShortCodes (session : ArenaSession) : Prop :=
  ∀ object ∈ session.objects, ∀ code, object.code = some code → code < 250#64

theorem Inv.tagsRead_iff {header : List (BitVec 8)} {session : ArenaSession}
    (hinv : Inv header session) : TagsRead session ↔ ShortCodes session := by
  refine forall₂_congr fun object hobject => forall₂_congr fun code hcode => ?_
  have hin := hinv.laid.placed object hobject
  obtain ⟨hsize, hbytes⟩ := hin.tag_eq code hcode
  have haddr : object.addr ≤ session.arena.block.length :=
    ((Nat.le_add_right _ _).trans hin.stop_le).trans hinv.kept.size_le_length
  rw [LDObject.start, hsize] at hbytes
  rw [← getTag_eq_iff (hsize.symm.trans_le hin.tag_le) haddr hbytes]
  refine and_iff_left_of_imp ?_
  intro hread
  rw [assertTag, hread, Option.map_some, decide_eq_true rfl]

theorem ShortCodes.of_step {session session' : ArenaSession} (hshort : ShortCodes session)
    {memory : ℕ → BitVec 8} {op : ArenaOp} (hop : op.Short)
    (hstep : step memory session op = some session') : ShortCodes session' := by
  have hpromised : op.promised session = true := (Option.ite_none_right_eq_some.mp hstep).1
  simp only [step, hpromised, if_true] at hstep
  intro other hother
  cases op with
  | allocate request =>
      obtain ⟨⟨addr, arena⟩, -, rfl⟩ := Option.map_eq_some_iff.mp hstep
      rcases List.mem_append.mp hother with hold | hnew
      · exact hshort other hold
      · obtain rfl := List.mem_singleton.mp hnew
        exact fun _ hcode => nomatch hcode
  | setTag i code =>
      obtain ⟨object, -, hset⟩ := Option.bind_eq_some_iff.mp hstep
      obtain ⟨arena, -, rfl⟩ := Option.map_eq_some_iff.mp hset
      rcases List.mem_or_eq_of_mem_set hother with hold | rfl
      · exact hshort other hold
      · rintro _ ⟨⟩
        exact hop
  | write i content =>
      obtain ⟨object, hobject, hwrite⟩ := Option.bind_eq_some_iff.mp hstep
      obtain ⟨block, -, rfl⟩ := Option.map_eq_some_iff.mp hwrite
      rcases List.mem_or_eq_of_mem_set hother with hold | rfl
      · exact hshort other hold
      · exact hshort object (List.mem_of_getElem? hobject)

/-- A tag that is set is one of those there are. -/
theorem ShortCodes.of_setTag {session session' : ArenaSession} {memory : ℕ → BitVec 8} {i : ℕ}
    {code : BitVec 64} (hstep : step memory session (.setTag i code) = some session')
    (hshort : ShortCodes session') : code < 250#64 := by
  have hpromised : (ArenaOp.setTag i code).promised session = true :=
    (Option.ite_none_right_eq_some.mp hstep).1
  simp only [step, hpromised, if_true] at hstep
  obtain ⟨object, hobject, hset⟩ := Option.bind_eq_some_iff.mp hstep
  obtain ⟨arena, -, rfl⟩ := Option.map_eq_some_iff.mp hset
  have hi := (List.getElem?_eq_some_iff.mp hobject).1
  exact hshort { object with code := some code } (List.mem_set hi _) code rfl

/-- In every run, promised operations go through, and the objects are aligned, in disjoint ranges of
the arena, with the contents and the tags that were written. The tags are read as they were set, and
accepted, in just the runs that set short ones only. -/
theorem arenaTags_run (memory : ℕ → BitVec 8) (initialArenaSize : ℕ) (header : List (BitVec 8))
    (ops : List ArenaOp) :
    ∃ arena, create memory initialArenaSize header = some arena ∧
      EveryState (step memory) (Laid header) ⟨arena, []⟩ ops ∧
      EveryStep (step memory) (fun session op => op.promised session = true →
        (step memory session op).isSome) ⟨arena, []⟩ ops ∧
      (EveryState (step memory) TagsRead ⟨arena, []⟩ ops ↔
        EveryStep (step memory) (fun session op => op.promised session = true → op.Short)
          ⟨arena, []⟩ ops) := by
  obtain ⟨arena, hcreate, hkept, hsize, hheader⟩ := create_spec memory initialArenaSize header
  have hstart : Inv header ⟨arena, []⟩ :=
    ⟨⟨hheader, fun _ hnone => absurd hnone List.not_mem_nil, .nil⟩, hkept, hsize.ge⟩
  have hempty : ShortCodes ⟨arena, []⟩ := fun _ hnone => absurd hnone List.not_mem_nil
  have hany : EveryStep (step memory) (fun _ _ => True) ⟨arena, []⟩ ops :=
    EveryStep.trivial_of (fun _ _ => trivial) _ _
  refine ⟨arena, hcreate, ?_, ?_, ?_, ?_⟩
  · exact EveryState.of_invariant (I := Inv header) (fun _ _ _ hinv _ => hinv.of_step)
      (fun _ hinv => hinv.laid) hstart hany
  · refine EveryStep.of_invariant (I := Inv header) (fun _ _ _ hinv _ => hinv.of_step) ?_ hstart hany
    intro session op hinv _ hpromised
    obtain ⟨session', hstep, -⟩ := hinv.next memory hpromised
    rw [hstep, Option.isSome_some]
  · refine EveryStep.of_everyState (I := Inv header) (fun _ _ _ hinv => hinv.of_step) ?_ hstart
    intro session op hinv _ hnot
    obtain ⟨hpromised, hlong⟩ := Classical.not_imp.mp hnot
    obtain ⟨session', hstep, hinv'⟩ := hinv.next memory hpromised
    refine ⟨session', hstep, ?_⟩
    intro hread
    have hshort := hinv'.tagsRead_iff.mp hread
    cases op with
    | allocate request => exact hlong trivial
    | setTag i code => exact hlong (hshort.of_setTag hstep)
    | write i content => exact hlong trivial
  · refine EveryState.of_invariant (I := fun session => Inv header session ∧ ShortCodes session)
      ?_ (fun session hboth => hboth.1.tagsRead_iff.mpr hboth.2) ⟨hstart, hempty⟩
    intro session op session' hboth hshort hstep
    have hpromised : op.promised session = true := (Option.ite_none_right_eq_some.mp hstep).1
    exact ⟨hboth.1.of_step hstep, hboth.2.of_step (hshort hpromised) hstep⟩

/-- The tag of a type whose hash is 1000 is not accepted. -/
theorem thousand_not_read : ¬ EveryState (step fun _ => 0#8) TagsRead
    ⟨⟨List.replicate 32 0#8, 32, 8⟩, []⟩ [.allocate ⟨4, 8, 8, ⟨3, rfl⟩⟩, .setTag 0 1000#64] := by
  rintro ⟨-, hallocated⟩
  have hpadding : addPadding 8 8 8 0 = (16, 8) := by
    simp [addPadding]
  have hspace : allocateSpace (fun _ => 0#8) ⟨4, 8, 8, ⟨3, rfl⟩⟩ ⟨List.replicate 32 0#8, 32, 8⟩ =
      some (16, ⟨List.replicate 32 0#8, 32, 20⟩) := by
    have haligned : LinkedArena.alignUp 8 8 = 8 := by decide
    simp only [allocateSpace, haligned, Nat.sub_self, hpadding]
    rfl
  have hstep : step (fun _ => 0#8) ⟨⟨List.replicate 32 0#8, 32, 8⟩, []⟩
      (.allocate ⟨4, 8, 8, ⟨3, rfl⟩⟩) = some ⟨⟨List.replicate 32 0#8, 32, 20⟩,
        [⟨16, ⟨4, 8, 8, ⟨3, rfl⟩⟩, none, List.replicate 4 0#8⟩]⟩ := by
    simp only [step, ArenaOp.promised, if_true, hspace]
    rfl
  obtain ⟨-, hset⟩ := hallocated _ hstep
  have hread : getTag _ 16 = some (tagValue 1000#64) :=
    (hset _ rfl _ List.mem_cons_self _ rfl).1
  exact absurd hread (by decide)

end Memoria.LDArena

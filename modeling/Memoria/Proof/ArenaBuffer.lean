import Mathlib.Algebra.Ring.Nat
import Mathlib.Data.List.Infix
import Mathlib.Order.Lattice
import Mathlib.Tactic.Set
import Memoria.ArenaBuffer

/-!
# Arena buffers are lists

Every change keeps a buffer honest but `remove`, which copies with `memcpy`, and where the elements
behind the range are more than the range has, they overlap with where they go. A copy has the
capacity of the other buffer and a block for its elements only, so that it is honest just where the
other buffer is full.
-/

namespace Memoria

open Lib

variable {T : Type}

theorem length_allocateBuffer (memory : Nat → T) (size : Nat) :
    (allocateBuffer memory size).length = size := by
  rw [allocateBuffer, List.length_map, List.length_range]

theorem loadBuffer_start {block : List T} {size : Nat} (hsize : size ≤ block.length) :
    loadBuffer block 0 size = some (block.take size) := by
  rw [loadBuffer, if_pos (by omega), List.drop_zero]

theorem storeBuffer_of_le {block values : List T} {idx : Nat}
    (hidx : idx + values.length ≤ block.length) : storeBuffer block idx values =
      some (block.take idx ++ (values ++ block.drop (idx + values.length))) := if_pos hidx

theorem length_store {block values : List T} {idx : Nat}
    (hidx : idx + values.length ≤ block.length) :
    (block.take idx ++ (values ++ block.drop (idx + values.length))).length = block.length := by
  simp only [List.length_append, List.length_take, List.length_drop]
  omega

/-- What the block starts with after a write. -/
theorem take_store {block values : List T} {idx : Nat}
    (hidx : idx + values.length ≤ block.length) :
    (block.take idx ++ (values ++ block.drop (idx + values.length))).take (idx + values.length) =
      block.take idx ++ values := by
  have hlength : (block.take idx ++ values).length = idx + values.length := by
    rw [List.length_append, List.length_take]
    omega
  rw [← List.append_assoc, ← hlength]
  exact List.take_left

section Segments

variable {block other values : List T} {idx i n m : Nat}

theorem take_drop_congr (hfront : block.take m = other.take m) (hin : i + n ≤ m) :
    (block.drop i).take n = (other.drop i).take n := by
  have hsegment (l : List T) : ((l.take m).drop i).take n = (l.drop i).take n := by
    rw [List.drop_take, List.take_take, min_eq_left (by omega)]
  rw [← hsegment block, ← hsegment other, hfront]

/-- What was written. -/
theorem take_drop_store (hidx : idx + values.length ≤ block.length) :
    ((block.take idx ++ (values ++ block.drop (idx + values.length))).drop idx).take values.length =
      values := by
  have hlength : (block.take idx).length = idx := List.length_take_of_le (by omega)
  rw [List.drop_left' hlength, List.take_left]

/-- What the block has elsewhere. -/
theorem take_drop_store_of_disjoint (hidx : idx + values.length ≤ block.length)
    (hdisjoint : i + n ≤ idx ∨ idx + values.length ≤ i) :
    ((block.take idx ++ (values ++ block.drop (idx + values.length))).drop i).take n =
      (block.drop i).take n := by
  rcases hdisjoint with hbelow | habove
  · refine take_drop_congr ?_ hbelow
    exact List.take_left' (List.length_take_of_le (by omega))
  · have hlength : (block.take idx ++ values).length = idx + values.length := by
      rw [List.length_append, List.length_take_of_le (by omega)]
    have hskip (l : List T) :
        l.drop i = (l.drop (idx + values.length)).drop (i - (idx + values.length)) := by
      rw [List.drop_drop, Nat.add_sub_cancel' habove]
    rw [← List.append_assoc, hskip, List.drop_left' hlength, ← hskip]

end Segments

namespace ArenaBuffer

theorem le_growCapacity (needed capacity : Nat) (hpos : 0 < capacity) :
    needed ≤ growCapacity needed capacity ∧ capacity ≤ growCapacity needed capacity := by
  induction capacity using growCapacity.induct needed with
  | case1 capacity hloop ih =>
      rw [growCapacity, dif_pos hloop]
      have hrest := ih (by omega)
      omega
  | case2 capacity hloop =>
      rw [growCapacity, dif_neg hloop]
      omega

section Changes

variable (memory : Nat → T) {buffer : ArenaBuffer T} {content : List T}

theorem Honest.enlarge (hbuffer : buffer.Honest content) (requested : Nat) :
    ∃ enlarged, buffer.enlarge memory requested = some enlarged ∧ enlarged.Honest content ∧
      buffer.capacity + requested ≤ enlarged.capacity := by
  obtain ⟨htake, hsize, hle, hcapacity⟩ := hbuffer
  simp only [ArenaBuffer.enlarge]
  set doubled := if buffer.capacity * 2 = 0 then 1 else buffer.capacity * 2 with hdoubled
  set next := growCapacity (buffer.capacity + requested) doubled with hnext
  have hpos : 0 < doubled ∧ buffer.capacity ≤ doubled := by
    rw [hdoubled]
    split <;> omega
  have hgrown := le_growCapacity (buffer.capacity + requested) doubled hpos.1
  rw [← hnext] at hgrown
  have hfits : 0 + content.length ≤ (allocateBuffer memory next).length := by
    rw [length_allocateBuffer]
    omega
  rw [loadBuffer_start (hle.trans hcapacity), htake, Option.bind_eq_bind, Option.bind_some,
    storeBuffer_of_le hfits]
  refine ⟨_, rfl, ⟨?_, hsize, hle.trans (hpos.2.trans hgrown.2), ?_⟩, hgrown.1⟩
  · have hstart := take_store hfits
    rw [Nat.zero_add] at hstart
    rw [hsize, Nat.zero_add]
    exact hstart
  · exact ((length_store hfits).trans (length_allocateBuffer memory next)).ge

theorem Honest.ensure (hbuffer : buffer.Honest content) (size : Nat) :
    ∃ ensured, buffer.ensure memory size = some ensured ∧ ensured.Honest content ∧
      content.length + size ≤ ensured.capacity := by
  have hsize := hbuffer.size_eq
  by_cases hmore : buffer.size + size > buffer.capacity
  · rw [ArenaBuffer.ensure, if_pos hmore]
    obtain ⟨enlarged, hen, hhonest, hcapacity⟩ :=
      hbuffer.enlarge memory (buffer.size + size - buffer.capacity)
    exact ⟨enlarged, hen, hhonest, by omega⟩
  · rw [ArenaBuffer.ensure, if_neg hmore]
    exact ⟨buffer, rfl, hbuffer, by omega⟩

theorem Honest.appendValues (hbuffer : buffer.Honest content) (values : List T) :
    ∃ appended, buffer.appendValues memory values = some appended ∧
      appended.Honest (content ++ values) := by
  obtain ⟨ensured, hensured, hhonest, hcapacity⟩ := hbuffer.ensure memory values.length
  obtain ⟨htake, hsize, -, hallocated⟩ := hhonest
  have hfits : ensured.size + values.length ≤ ensured.block.length := by omega
  rw [ArenaBuffer.appendValues, hensured, Option.bind_eq_bind, Option.bind_some,
    storeBuffer_of_le hfits]
  refine ⟨_, rfl, ?_, ?_, ?_, ?_⟩
  · exact (take_store hfits).trans (congrArg (· ++ values) htake)
  · rw [List.length_append, hsize]
  · change ensured.size + values.length ≤ ensured.capacity
    omega
  · exact hallocated.trans (length_store hfits).ge

theorem Honest.clear (hbuffer : buffer.Honest content) : buffer.clear.Honest [] :=
  ⟨List.take_zero, rfl, Nat.zero_le _, hbuffer.capacity_le⟩

theorem honest_reset (buffer : ArenaBuffer T) : (buffer.reset memory).Honest [] :=
  ⟨List.take_zero, rfl, Nat.zero_le _, (length_allocateBuffer memory 64).ge⟩

theorem Honest.addSize (hbuffer : buffer.Honest content) {size : Nat}
    (hfits : buffer.size + size ≤ buffer.capacity) :
    (buffer.addSize size).Honest (content ++ (buffer.block.drop buffer.size).take size) := by
  obtain ⟨htake, hsize, -, hallocated⟩ := hbuffer
  refine ⟨?_, ?_, hfits, hallocated⟩
  · change buffer.block.take (buffer.size + size) = _
    rw [List.take_add, htake]
  · change buffer.size + size = _
    rw [List.length_append, ← hsize, List.length_take, List.length_drop]
    omega

/-- `remove` copies within the block. -/
theorem remove_eq {start stop : Nat} (hstart : start ≤ stop) (hallocated : buffer.size ≤ buffer.block.length)
    (hstop : stop ≤ buffer.size) (hapart : buffer.size - stop ≤ stop - start) :
    ∃ rest, buffer.remove start stop =
        some { buffer with
          block := buffer.block.take start ++ ((buffer.block.take buffer.size).drop stop ++ rest)
          size := buffer.size - (stop - start) } ∧
      start + (buffer.size - stop) + rest.length = buffer.block.length := by
  set values := (buffer.block.drop stop).take (buffer.size - stop) with hvalues
  have hlength : values.length = buffer.size - stop := by
    rw [hvalues, List.length_take, List.length_drop]
    omega
  have hfits : start + values.length ≤ buffer.block.length := by omega
  have hload : loadBuffer buffer.block stop (buffer.size - stop) = some values := if_pos (by omega)
  have hcopy : memCpyBuffer buffer.block stop start (buffer.size - stop) =
      some (buffer.block.take start ++
        (values ++ buffer.block.drop (start + values.length))) := by
    rw [memCpyBuffer, if_pos (by omega), hload]
    exact storeBuffer_of_le hfits
  refine ⟨buffer.block.drop (start + values.length), ?_, ?_⟩
  · rw [ArenaBuffer.remove, hcopy, List.drop_take]
    rfl
  · rw [List.length_drop, ← hlength]
    omega

theorem Honest.remove_iff (hbuffer : buffer.Honest content) {start stop : Nat}
    (hstart : start ≤ stop) (hstop : stop ≤ buffer.size) :
    (∃ removed, buffer.remove start stop = some removed ∧
      removed.Honest (content.take start ++ content.drop stop)) ↔
        buffer.size - stop ≤ stop - start := by
  obtain ⟨htake, hsize, hle, hcapacity⟩ := hbuffer
  constructor
  · rintro ⟨removed, hremoved, -⟩
    by_contra hmore
    have hoverlap : memCpyBuffer buffer.block stop start (buffer.size - stop) = none :=
      if_neg (by omega)
    rw [ArenaBuffer.remove, hoverlap] at hremoved
    exact nomatch hremoved
  · intro hapart
    obtain ⟨rest, hremoved, hrest⟩ := remove_eq hstart (hle.trans hcapacity) hstop hapart
    have hcontent : (content.take start ++ content.drop stop).length =
        buffer.size - (stop - start) := by
      rw [List.length_append, List.length_take, List.length_drop]
      omega
    refine ⟨_, hremoved, ?_, hcontent.symm, ?_, ?_⟩
    · have hfront : buffer.block.take start = content.take start := by
        rw [← htake, List.take_take, min_eq_left (hstart.trans hstop)]
      change (buffer.block.take start ++ ((buffer.block.take buffer.size).drop stop ++ rest)).take
        (buffer.size - (stop - start)) = _
      rw [htake, hfront, ← List.append_assoc, ← hcontent]
      exact List.take_left
    · exact (Nat.sub_le _ _).trans hle
    · refine hcapacity.trans (le_of_eq ?_)
      simp only [List.length_append, List.length_take, List.length_drop]
      omega

theorem Honest.copyOf_iff (hbuffer : buffer.Honest content) :
    (∃ copied, buffer.copyOf = some copied ∧ copied.Honest content) ↔
      buffer.size = buffer.capacity := by
  obtain ⟨htake, hsize, hle, hcapacity⟩ := hbuffer
  have hcopy : buffer.copyOf = some { buffer with block := content } := by
    rw [copyOf, loadBuffer_start (hle.trans hcapacity), htake]
    rfl
  rw [hcopy]
  constructor
  · rintro ⟨_, ⟨⟩, hcopied⟩
    have hallocated : buffer.capacity ≤ content.length := hcopied.capacity_le
    omega
  · intro hfull
    refine ⟨_, rfl, ?_, hsize, hle, ?_⟩
    · change content.take buffer.size = content
      rw [hsize, List.take_length]
    · change buffer.capacity ≤ content.length
      omega

theorem honest_make (args : Ctor T) : ((cls memory).make args).Honest [] := by
  cases args with
  | ofCapacity capacity =>
      exact ⟨List.take_zero, rfl, Nat.zero_le _, (length_allocateBuffer memory capacity).ge⟩
  | ofBlock block => exact ⟨List.take_zero, rfl, Nat.zero_le _, le_rfl⟩

/-- One change. -/
theorem Honest.change_iff (hbuffer : buffer.Honest content) {edit : Edit T}
    (hpromised : edit.promised buffer = true) :
    (∃ changed, edit.apply memory buffer = some changed ∧
      changed.Honest (edit.list buffer content)) ↔ edit.Apart buffer := by
  cases edit with
  | appendValue value => exact iff_of_true (hbuffer.appendValues memory [value]) trivial
  | appendValues values => exact iff_of_true (hbuffer.appendValues memory values) trivial
  | ensure size =>
      obtain ⟨ensured, hensured, hhonest, -⟩ := hbuffer.ensure memory size
      exact iff_of_true ⟨ensured, hensured, hhonest⟩ trivial
  | remove start stop =>
      have hrange : start ≤ stop ∧ stop ≤ buffer.size := of_decide_eq_true hpromised
      exact hbuffer.remove_iff hrange.1 hrange.2
  | clear => exact iff_of_true ⟨_, rfl, hbuffer.clear⟩ trivial
  | reset => exact iff_of_true ⟨_, rfl, honest_reset memory buffer⟩ trivial
  | addSize size =>
      exact iff_of_true ⟨_, rfl, hbuffer.addSize (of_decide_eq_true hpromised)⟩ trivial

/-- One copy or move. -/
theorem Honest.transfer_iff (hbuffer : buffer.Honest content) (way : Way) :
    (∃ target, (cls memory).transfer way buffer = some target ∧ target.Honest content) ↔
      way.OfFull buffer := by
  change (∃ target, (if way.copies then buffer.copyOf else some buffer) = some target ∧ _) ↔ _
  cases hcopies : way.copies with
  | true =>
      rw [if_pos rfl, hbuffer.copyOf_iff]
      exact ⟨fun hfull _ => hfull, fun hfull => hfull hcopies⟩
  | false =>
      refine iff_of_true ⟨buffer, rfl, hbuffer⟩ ?_
      intro hcopy
      exact absurd (hcopy.symm.trans hcopies) Bool.noConfusion

end Changes

end ArenaBuffer

namespace VLEArenaBuffer

theorem offsetsOf_eq_nil {rows : List (List T)} : offsetsOf rows = [] ↔ rows = [] := by
  rw [offsetsOf]
  split
  · rename_i hrows
    exact iff_of_true rfl hrows
  · rename_i hrows
    refine iff_of_false ?_ hrows
    rw [List.map_eq_nil_iff, List.range_eq_nil]
    exact Nat.succ_ne_zero _

/-- One more row has one more offset, behind 0 where it is the first. -/
theorem offsetsOf_append (rows : List (List T)) (values : List T) :
    offsetsOf (rows ++ [values]) =
      (if rows = [] then [0] else offsetsOf rows) ++ [rows.flatten.length + values.length] := by
  have hstarts : (if rows = [] then [0] else offsetsOf rows) =
      (List.range (rows.length + 1)).map fun i => (rows.take i).flatten.length := by
    by_cases hrows : rows = []
    · rw [if_pos hrows, hrows]
      rfl
    · rw [if_neg hrows, offsetsOf, if_neg hrows]
  have hfront : (List.range (rows.length + 1)).map
        (fun i => ((rows ++ [values]).take i).flatten.length) =
      (List.range (rows.length + 1)).map fun i => (rows.take i).flatten.length := by
    refine List.map_congr_left ?_
    intro i hi
    rw [List.take_append_of_le_length (Nat.lt_succ_iff.mp (List.mem_range.mp hi))]
  have hlast : ((rows ++ [values]).take (rows.length + 1)).flatten.length =
      rows.flatten.length + values.length := by
    rw [List.take_of_length_le (by simp), List.flatten_append, List.length_append]
    simp
  rw [offsetsOf, if_neg (by simp), List.length_append, List.length_singleton, List.range_succ,
    List.map_append, hfront, hstarts, List.map_singleton, hlast]

/-- The offsets of rows start at 0, never decrease, and end at the number of elements. -/
theorem offsetsOf_spec {rows : List (List T)} (hrows : rows ≠ []) :
    (offsetsOf rows).head? = some 0 ∧ (offsetsOf rows).Pairwise (· ≤ ·) ∧
      (offsetsOf rows).getLast? = some rows.flatten.length := by
  rw [offsetsOf, if_neg hrows]
  refine ⟨?_, ?_, ?_⟩
  · rw [List.range_succ_eq_map]
    rfl
  · rw [List.pairwise_map]
    refine List.pairwise_le_range.imp ?_
    intro i j hij
    exact (List.IsPrefix.flatten (List.take_prefix_take_left hij)).length_le
  · rw [List.range_succ, List.map_append, List.map_singleton, List.getLast?_concat,
      List.take_length]

section Changes

variable (offsetMemory : Nat → Nat) (memory : Nat → T) {buffer : VLEArenaBuffer T}
  {rows : List (List T)}

/-- The offset of one more row. -/
theorem Honest.appendOffset (hbuffer : buffer.Honest rows) (values : List T) :
    ∃ offsets, appendOffset offsetMemory (buffer.data.size + values.length) buffer.offsets =
        some offsets ∧
      offsets.Honest (offsetsOf (rows ++ [values])) := by
  obtain ⟨hoffsets, hdata⟩ := hbuffer
  have hempty : buffer.offsets.size = 0 ↔ rows = [] := by
    rw [hoffsets.size_eq, List.length_eq_zero_iff, offsetsOf_eq_nil]
  have hfirst : ∃ offsets, startOffsets offsetMemory buffer.offsets = some offsets ∧
      offsets.Honest (if rows = [] then [0] else offsetsOf rows) := by
    rw [startOffsets]
    by_cases hrows : rows = []
    · rw [if_pos (hempty.mpr hrows), if_pos hrows]
      have hnil : offsetsOf rows = [] := offsetsOf_eq_nil.mpr hrows
      rw [hnil] at hoffsets
      exact hoffsets.appendValues offsetMemory [0]
    · rw [if_neg (mt hempty.mp hrows), if_neg hrows]
      exact ⟨buffer.offsets, rfl, hoffsets⟩
  obtain ⟨started, hstarted, hhonest⟩ := hfirst
  rw [VLEArenaBuffer.appendOffset, hstarted, offsetsOf_append, hdata.size_eq]
  exact hhonest.appendValues offsetMemory [rows.flatten.length + values.length]

theorem flatten_concat (rows : List (List T)) (values : List T) :
    (rows ++ [values]).flatten = rows.flatten ++ values := by
  rw [List.flatten_append, List.flatten_singleton]

theorem Honest.append (hbuffer : buffer.Honest rows) (values : List T) :
    ∃ appended, buffer.append offsetMemory memory values = some appended ∧
      appended.Honest (rows ++ [values]) := by
  obtain ⟨offsets, hoffsets, hhonest⟩ := hbuffer.appendOffset offsetMemory values
  obtain ⟨data, hdata, hrows⟩ := hbuffer.data.appendValues memory values
  refine ⟨⟨offsets, data⟩, ?_, hhonest, ?_⟩
  · rw [VLEArenaBuffer.append, hoffsets, Option.bind_eq_bind, Option.bind_some, hdata]
    rfl
  · rwa [flatten_concat]

theorem Honest.appendSize (hbuffer : buffer.Honest rows) {size : Nat}
    (hfits : buffer.data.size + size ≤ buffer.data.capacity) :
    ∃ appended, buffer.appendSize offsetMemory size = some appended ∧
      appended.Honest (rows ++ [(buffer.data.block.drop buffer.data.size).take size]) := by
  set values := (buffer.data.block.drop buffer.data.size).take size with hvalues
  have hlength : values.length = size := by
    have hallocated := hbuffer.data.capacity_le
    rw [hvalues, List.length_take, List.length_drop]
    omega
  obtain ⟨offsets, hoffsets, hhonest⟩ := hbuffer.appendOffset offsetMemory values
  rw [hlength] at hoffsets
  refine ⟨⟨offsets, buffer.data.addSize size⟩, ?_, hhonest, ?_⟩
  · rw [VLEArenaBuffer.appendSize, hoffsets]
    rfl
  · rw [flatten_concat]
    exact hbuffer.data.addSize hfits

/-- One change. -/
theorem Honest.change (hbuffer : buffer.Honest rows) {edit : Edit T}
    (hpromised : edit.promised buffer = true) :
    ∃ changed, edit.apply offsetMemory memory buffer = some changed ∧
      changed.Honest (edit.rows buffer rows) := by
  cases edit with
  | append values => exact hbuffer.append offsetMemory memory values
  | appendSize size => exact hbuffer.appendSize offsetMemory (of_decide_eq_true hpromised)
  | ensure size =>
      obtain ⟨data, hdata, hhonest, -⟩ := hbuffer.data.ensure memory size
      refine ⟨{ buffer with data := data }, ?_, hbuffer.offsets, hhonest⟩
      change (buffer.data.ensure memory size >>= _) = _
      rw [hdata]
      rfl
  | clear => exact ⟨_, rfl, hbuffer.offsets.clear, hbuffer.data.clear⟩
  | reset =>
      exact ⟨_, rfl, ArenaBuffer.honest_reset offsetMemory buffer.offsets,
        ArenaBuffer.honest_reset memory buffer.data⟩

theorem Honest.copyOf_iff (hbuffer : buffer.Honest rows) :
    (∃ copied, buffer.copyOf = some copied ∧ copied.Honest rows) ↔
      buffer.offsets.size = buffer.offsets.capacity ∧ buffer.data.size = buffer.data.capacity := by
  rw [← hbuffer.offsets.copyOf_iff, ← hbuffer.data.copyOf_iff]
  constructor
  · rintro ⟨copied, hcopied, hhonest⟩
    obtain ⟨offsets, hoffsets, hrest⟩ := Option.bind_eq_some_iff.mp hcopied
    obtain ⟨data, hdata, hpair⟩ := Option.bind_eq_some_iff.mp hrest
    obtain rfl := Option.some.inj hpair
    exact ⟨⟨offsets, hoffsets, hhonest.offsets⟩, ⟨data, hdata, hhonest.data⟩⟩
  · rintro ⟨⟨offsets, hoffsets, hhonest⟩, ⟨data, hdata, hrows⟩⟩
    refine ⟨⟨offsets, data⟩, ?_, hhonest, hrows⟩
    rw [copyOf, hoffsets, hdata]
    rfl

/-- One copy or move. -/
theorem Honest.transfer_iff (hbuffer : buffer.Honest rows) (way : Way) :
    (∃ target, (cls offsetMemory memory).transfer way buffer = some target ∧
      target.Honest rows) ↔ way.OfFull buffer := by
  change (∃ target, (if way = .copyConstruct then buffer.copyOf else some buffer) = some target ∧ _)
    ↔ _
  by_cases hway : way = .copyConstruct
  · rw [if_pos hway, hbuffer.copyOf_iff]
    exact ⟨fun hfull _ => hfull, fun hfull => hfull hway⟩
  · rw [if_neg hway]
    exact iff_of_true ⟨buffer, rfl, hbuffer⟩ fun hcopy => absurd hcopy hway

theorem honest_make : ((cls offsetMemory memory).make ()).Honest [] :=
  ⟨⟨rfl, rfl, le_rfl, le_rfl⟩, ⟨rfl, rfl, le_rfl, le_rfl⟩⟩

/-- The offsets start at 0, never decrease and end at the data size. -/
theorem Honest.offsets_spec (hbuffer : buffer.Honest rows) :
    let offsets := buffer.offsets.block.take buffer.offsets.size
    offsets = [] ∧ buffer.data.size = 0 ∨
      offsets.head? = some 0 ∧ offsets.Pairwise (· ≤ ·) ∧
        offsets.getLast? = some buffer.data.size := by
  obtain ⟨hoffsets, hdata⟩ := hbuffer
  rw [hoffsets.take_eq, hdata.size_eq]
  by_cases hrows : rows = []
  · refine .inl ⟨offsetsOf_eq_nil.mpr hrows, ?_⟩
    rw [hrows]
    rfl
  · exact .inr (offsetsOf_spec hrows)

end Changes

end VLEArenaBuffer

/-- A run of operations on arena buffers, each of which may be a copy or the target of a move, goes
through with every buffer honest just where no `remove` has overlapping ranges and copies are made
of full buffers. For buffers of rows it is the latter, and then the offsets are in order. -/
theorem arenaBuffers_go_iff (offsetMemory : Nat → Nat) (memory : Nat → T) :
    (∀ ops, EveryStep (ArenaBuffer.cls memory).step
        ((ArenaBuffer.cls memory).Goes ArenaBuffer.Honest) (fun _ => none) ops ↔
      EveryStep (ArenaBuffer.cls memory).step
        (fun buffers op => (ArenaBuffer.cls memory).promisedOp buffers op = true →
          ObjectClass.Exact ArenaBuffer.Edit.Apart ArenaBuffer.Way.OfFull buffers op)
        (fun _ => none) ops) ∧
    (∀ ops, EveryStep (VLEArenaBuffer.cls offsetMemory memory).step
        ((VLEArenaBuffer.cls offsetMemory memory).Goes VLEArenaBuffer.Honest) (fun _ => none) ops ↔
      EveryStep (VLEArenaBuffer.cls offsetMemory memory).step
        (fun buffers op => (VLEArenaBuffer.cls offsetMemory memory).promisedOp buffers op = true →
          ObjectClass.Exact (fun _ _ => True) VLEArenaBuffer.Way.OfFull buffers op)
        (fun _ => none) ops) ∧
    ∀ (buffer : VLEArenaBuffer T) (rows : List (List T)), buffer.Honest rows →
      buffer.offsets.block.take buffer.offsets.size = [] ∧ buffer.data.size = 0 ∨
        (buffer.offsets.block.take buffer.offsets.size).head? = some 0 ∧
          (buffer.offsets.block.take buffer.offsets.size).Pairwise (· ≤ ·) ∧
          (buffer.offsets.block.take buffer.offsets.size).getLast? = some buffer.data.size := by
  refine ⟨fun ops => ?_, fun ops => ?_, fun buffer rows hbuffer => hbuffer.offsets_spec⟩
  · refine ObjectClass.run_iff (ArenaBuffer.honest_make memory) ?_ ?_ ops
    · intro edit buffer content hbuffer hpromised
      exact hbuffer.change_iff memory hpromised
    · intro way buffer content hbuffer
      exact hbuffer.transfer_iff memory way
  · refine ObjectClass.run_iff (fun _ => VLEArenaBuffer.honest_make offsetMemory memory) ?_ ?_ ops
    · intro edit buffer rows hbuffer hpromised
      exact iff_of_true (hbuffer.change offsetMemory memory hpromised) trivial
    · intro way buffer rows hbuffer
      exact hbuffer.transfer_iff offsetMemory memory way

/-- A copy of a buffer that has free space says that it has it too. -/
theorem copiedArenaBuffer_not_honest : ¬ EveryStep (ArenaBuffer.cls (fun _ => 0)).step
    ((ArenaBuffer.cls (fun _ => 0)).Goes ArenaBuffer.Honest) (fun _ => none)
    [.make 0 (.ofCapacity 3), .change 0 (.appendValue 7), .transfer .copyConstruct 0 1] := by
  rintro ⟨-, hmade⟩
  obtain ⟨-, happended⟩ := hmade _ rfl
  obtain ⟨hcopy, -⟩ := happended _ rfl
  obtain ⟨buffers, hstep, hall⟩ := hcopy rfl
  obtain rfl := Option.some.inj hstep
  have hallocated : 3 ≤ 1 := (hall 1 _ rfl).capacity_le
  exact absurd hallocated (by decide)

end Memoria

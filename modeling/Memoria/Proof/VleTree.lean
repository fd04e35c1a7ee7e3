import Memoria.Proof.VleStream
import Memoria.Lib.Run
import Mathlib.Data.List.FinRange

namespace Memoria.VleTree

open Lib

/-! Trees of variable-length codes as lists of rows. -/

variable {Data Value Index : Type} {blocks : Nat} {params : Params Data Value Index}

abbrev Row (Value : Type) (blocks : Nat) := Fin blocks → Value

def column (rows : List (Row Value blocks)) (block : Fin blocks) : List Value :=
  rows.map fun row => row block

@[simp]
theorem length_column (rows : List (Row Value blocks)) (block : Fin blocks) :
    (column rows block).length = rows.length := by
  simp [column]

theorem column_append (rows rows' : List (Row Value blocks)) (block : Fin blocks) :
    column (rows ++ rows') block = column rows block ++ column rows' block := List.map_append

namespace Stream

variable [AddCommMonoid Index] {stream : Stream Data Index} {left right : List Value}

structure Shows (params : Params Data Value Index) (stream : Stream Data Index)
    (values : List Value) : Prop where
  holds : stream.Holds params values
  indexed : stream.Indexed params values

theorem Holds.shows {values : List Value} (h : stream.Holds params values) :
    (stream.reindexBlock params).Shows params values := ⟨h.reindexBlock, h.indexed⟩

theorem empty_shows : (empty : Stream Data Index).Shows params [] := by
  refine ⟨⟨⟨[], rfl⟩, rfl⟩, ?_, trivial, trivial, fun _ => ⟨rfl, rfl⟩,
    fun h => absurd h (Nat.not_lt_zero _)⟩
  simp [empty, divUp]

theorem Shows.locate_append (h : stream.Shows params (left ++ right)) :
    stream.locate params left.length = (params.codec.units left).length := by
  rw [h.holds.locate_eq h.indexed (by rw [List.length_append]; omega), List.take_left]

/-- The value whose code starts where the codes before it end. -/
theorem Shows.decode_eq {value : Value} (h : stream.Shows params (left ++ value :: right)) :
    stream.locate params left.length < stream.dataSize ∧
      params.codec.decode (stream.values.drop (stream.locate params left.length)) = value := by
  have hpos := params.codec.length_encode_pos value
  obtain ⟨rest, hdata⟩ := h.holds.data
  rw [h.locate_append, h.holds.dataSize, hdata, Codec.units_append, Codec.units_cons,
    List.length_append, List.length_append, List.append_assoc, List.drop_left, List.append_assoc,
    params.codec.decode_encode]
  exact ⟨by omega, rfl⟩

omit [AddCommMonoid Index] in
/-- A part of the source's data in a gap of the target's. -/
theorem Carries.copyTo (params : Params Data Value Index) {source target : Stream Data Index}
    (front : List Data) {back moved : List Data} (h : target.Carries (front ++ back)) {start : Nat}
    (hsource : (source.values.drop start).take moved.length = moved) :
    (source.copyTo (target.insertSpace params front.length moved.length) start front.length
      moved.length).Carries (front ++ (moved ++ back)) := by
  obtain ⟨hole, hhole, hroom⟩ := h.insertSpace params moved.length
  rw [Stream.copyTo, hsource]
  exact hroom.overwrite hhole

theorem Shows.slice {values : List Value} (h : stream.Shows params values)
    (left mid right : List Value) (hsplit : values = left ++ (mid ++ right)) :
    (stream.values.drop (params.codec.units left).length).take (params.codec.units mid).length
      = params.codec.units mid := by
  obtain ⟨rest, hdata⟩ := h.holds.data
  rw [hdata, hsplit, Codec.units_append, Codec.units_append, List.append_assoc, List.drop_left,
    List.append_assoc, List.take_left]

end Stream

namespace QuickTree

variable [AddCommMonoid Index] {tree other : QuickTree Data Index blocks}
  {rows left mid right : List (Row Value blocks)}

structure Refines (params : Params Data Value Index) (tree : QuickTree Data Index blocks)
    (rows : List (Row Value blocks)) : Prop where
  size : tree.size = rows.length
  shows : ∀ block, (tree.columns block).Shows params (column rows block)

theorem empty_refines : (empty : QuickTree Data Index blocks).Refines params [] :=
  ⟨rfl, fun _ => Stream.empty_shows⟩

theorem Refines.reindex (hsize : tree.size = rows.length)
    (hholds : ∀ block, (tree.columns block).Holds params (column rows block)) :
    (tree.reindex params).Refines params rows := ⟨hsize, fun block => (hholds block).shows⟩

theorem Refines.value_eq (h : tree.Refines params rows) (block : Fin blocks) {idx : Nat}
    (hidx : idx < rows.length) : tree.value params block idx = some (rows[idx] block) := by
  have hcolumn : column rows block
      = column (rows.take idx) block ++ rows[idx] block :: column (rows.drop (idx + 1)) block := by
    have hrows : rows = rows.take idx ++ rows[idx] :: rows.drop (idx + 1) := by simp
    nth_rewrite 1 [hrows]
    rw [column_append]
    rfl
  have hshows := h.shows block
  rw [hcolumn] at hshows
  obtain ⟨hlt, hdecode⟩ := hshows.decode_eq
  rw [length_column, List.length_take_of_le (Nat.le_of_lt hidx)] at hlt hdecode
  rw [QuickTree.value]
  simp only [hdecode]
  rw [if_pos ⟨by rw [h.size]; exact hidx, hlt⟩]

theorem Refines.insertEntries (h : tree.Refines params (left ++ right))
    (entries : List (Row Value blocks)) :
    ∃ tree', tree.insertEntries params left.length entries = some tree' ∧
      tree'.Refines params (left ++ (entries ++ right)) := by
  have hle : left.length ≤ tree.size := by
    rw [h.size, List.length_append]
    omega
  rw [QuickTree.insertEntries, if_pos hle]
  refine ⟨_, rfl, Refines.reindex ?_ fun block => ?_⟩
  · simp only [h.size, List.length_append]
    omega
  · have hshows := h.shows block
    rw [column_append] at hshows
    have hpos := hshows.locate_append
    rw [length_column] at hpos
    obtain ⟨hole, hhole, hroom⟩ := (hshows.holds.split rfl).insertSpace params
      (Stream.totalLength params.codec (column entries block))
    rw [← Codec.length_units] at hhole
    have hwritten := hroom.encodeAll params.codec hhole
    rw [Stream.Holds, column_append, column_append, Codec.units_append, Codec.units_append]
    simp only [hpos]
    exact hwritten

theorem Refines.remove (h : tree.Refines params (left ++ (mid ++ right))) :
    ∃ tree', tree.remove params left.length (left.length + mid.length) = some tree' ∧
      tree'.Refines params (left ++ right) := by
  have hsize := h.size
  simp only [List.length_append] at hsize
  rw [QuickTree.remove, if_pos ⟨by omega, by omega⟩]
  refine ⟨_, rfl, Refines.reindex ?_ fun block => ?_⟩
  · simp only [List.length_append]
    omega
  · have hshows := h.shows block
    rw [column_append, column_append] at hshows
    have hstart := hshows.locate_append
    rw [← List.append_assoc] at hshows
    have hstop := hshows.locate_append
    rw [List.length_append, Codec.units_append, List.length_append, length_column, length_column]
      at hstop
    rw [length_column] at hstart
    have hcarries := hshows.holds
    rw [Stream.Holds, Codec.units_append, Codec.units_append, List.append_assoc] at hcarries
    have hremoved := hcarries.removeSpace params
    rw [Stream.Holds, column_append, Codec.units_append]
    simp only [hstart, hstop, Nat.add_sub_cancel_left]
    exact hremoved

theorem Refines.updateValue [DecidableEq Value] {row : Row Value blocks}
    (h : tree.Refines params (left ++ row :: right)) (block : Fin blocks)
    (update : Value → Value) :
    ∃ tree', tree.updateValue params block left.length update = some tree' ∧
      tree'.Refines params (left ++ Function.update row block (update (row block)) :: right) := by
  have hlt : left.length < tree.size := by
    rw [h.size, List.length_append, List.length_cons]
    omega
  rw [QuickTree.updateValue, if_pos hlt]
  refine ⟨_, rfl, ?_, fun block' => ?_⟩
  · rw [h.size]
    simp
  · have hshows := h.shows block'
    by_cases heq : block' = block
    · subst heq
      rw [column_append] at hshows
      obtain ⟨hholds, hindexed⟩ := hshows.holds.updateValue hshows.indexed update
      rw [length_column] at hholds hindexed
      have hcolumn : column (left ++ Function.update row block' (update (row block')) :: right) block'
          = column left block' ++ update (row block') :: column right block' := by
        simp [column]
      rw [hcolumn]
      simp only [Function.update_self]
      exact ⟨hholds, hindexed⟩
    · have hcolumn : column (left ++ Function.update row block (update (row block)) :: right) block'
          = column (left ++ row :: right) block' := by
        simp [column, heq]
      rw [hcolumn]
      simp only [Function.update_of_ne heq]
      exact hshows

theorem Refines.splitTo (h : tree.Refines params (left ++ right))
    (hother : other.Refines params rows) :
    ∃ tree' other', tree.splitTo params other left.length = some (tree', other') ∧
      tree'.Refines params left ∧ other'.Refines params (right ++ rows) := by
  have hsize := h.size
  rw [List.length_append] at hsize
  have htail : tree.Refines params (left ++ (right ++ [])) := by
    rw [List.append_nil]
    exact h
  obtain ⟨tree', hremove, htree'⟩ := htail.remove
  rw [← hsize] at hremove
  rw [List.append_nil] at htree'
  refine ⟨tree', _, by rw [QuickTree.splitTo, hremove]; rfl, htree',
    Refines.reindex ?_ fun block => ?_⟩
  · simp only [hother.size, List.length_append]
    omega
  · have hshows := h.shows block
    rw [column_append] at hshows
    have hpos := hshows.locate_append
    rw [length_column] at hpos
    have hlength : (tree.columns block).dataSize - (params.codec.units (column left block)).length
        = (params.codec.units (column right block)).length := by
      rw [hshows.holds.dataSize, Codec.units_append, List.length_append, Nat.add_sub_cancel_left]
    have hcopied := Stream.Carries.copyTo params [] (hother.shows block).holds
      (hshows.slice (column left block) (column right block) [] (by rw [List.append_nil]))
    rw [Stream.Holds, column_append, Codec.units_append]
    simp only [hpos, hlength]
    exact hcopied

theorem Refines.mergeWith (h : tree.Refines params rows) (hother : other.Refines params left) :
    (tree.mergeWith params other).Refines params (left ++ rows) := by
  refine Refines.reindex ?_ fun block => ?_
  · simp only [hother.size, h.size, List.length_append]
  · have hsize := (hother.shows block).holds.dataSize
    have hsize' := (h.shows block).holds.dataSize
    have htarget := (hother.shows block).holds
    rw [Stream.Holds, ← List.append_nil (params.codec.units (column left block))] at htarget
    have hcopied := Stream.Carries.copyTo params _ htarget
      ((h.shows block).slice [] (column rows block) [] (by simp))
    rw [Stream.Holds, column_append, Codec.units_append]
    simp only [hsize, hsize']
    rw [List.append_nil] at hcopied
    exact hcopied

end QuickTree

def columnwise (rows : List (Row Value blocks)) : List Value :=
  (List.finRange blocks).flatMap (column rows)

theorem length_flatMap_column (rows : List (Row Value blocks)) (columns : List (Fin blocks)) :
    (columns.flatMap (column rows)).length = columns.length * rows.length := by
  induction columns with
  | nil => simp
  | cons block columns ih =>
      rw [List.flatMap_cons, List.length_append, ih, length_column, List.length_cons, Nat.succ_mul,
        Nat.add_comm]

@[simp]
theorem length_columnwise (rows : List (Row Value blocks)) :
    (columnwise rows).length = rows.length * blocks := by
  rw [columnwise, length_flatMap_column, List.length_finRange, Nat.mul_comm]

/-- The parts before and behind a row of a column. -/
theorem columnwise_split (left right : List (Row Value blocks)) (block : Fin blocks) :
    ∃ front back, columnwise (left ++ right)
        = front ++ (column left block ++ (column right block ++ back)) ∧
      front = ((List.finRange blocks).take block).flatMap (column (left ++ right)) ∧
      back = ((List.finRange blocks).drop (block + 1)).flatMap (column (left ++ right)) := by
  refine ⟨_, _, ?_, rfl, rfl⟩
  have hget : (List.finRange blocks)[(block : Nat)]? = some block := by simp
  have hsplit := List.take_append_drop block (List.finRange blocks)
  have hdrop : (List.finRange blocks).drop block
      = block :: (List.finRange blocks).drop (block + 1) := by
    obtain ⟨hlt, hblock⟩ := List.getElem?_eq_some_iff.mp hget
    rw [List.drop_eq_getElem_cons hlt, hblock]
  rw [columnwise]
  nth_rewrite 1 [← hsplit]
  rw [hdrop, List.flatMap_append, List.flatMap_cons, column_append left right block,
    List.append_assoc]

namespace DenseTree

variable [AddCommMonoid Index] {tree other : DenseTree Data Index blocks}
  {rows left mid right : List (Row Value blocks)}

structure Refines (params : Params Data Value Index) (tree : DenseTree Data Index blocks)
    (rows : List (Row Value blocks)) : Prop where
  metadataSize : tree.metadataSize = rows.length * blocks
  shows : tree.stream.Shows params (columnwise rows)

theorem empty_refines : (empty : DenseTree Data Index blocks).Refines params [] := by
  have hnil : columnwise ([] : List (Row Value blocks)) = [] := by
    rw [← List.length_eq_zero_iff, length_columnwise, List.length_nil, Nat.zero_mul]
  refine ⟨(Nat.zero_mul _).symm, ?_⟩
  rw [hnil]
  exact Stream.empty_shows

theorem Refines.size_eq (h : tree.Refines params rows) (hblocks : 0 < blocks) :
    tree.size = rows.length := by
  rw [size, h.metadataSize, Nat.mul_div_cancel _ hblocks]

def columnStart (params : Params Data Value Index) (rows : List (Row Value blocks))
    (block : Fin blocks) : Nat :=
  (params.codec.units (((List.finRange blocks).take block).flatMap (column rows))).length

theorem Refines.locate_eq (h : tree.Refines params (left ++ right)) (block : Fin blocks) :
    tree.locate params block left.length
      = columnStart params (left ++ right) block
        + (params.codec.units (column left block)).length := by
  have hblocks : 0 < blocks := Nat.lt_of_le_of_lt (Nat.zero_le _) block.isLt
  obtain ⟨front, back, hsplit, hfront, -⟩ := columnwise_split left right block
  have hshows := h.shows
  rw [hsplit, ← List.append_assoc] at hshows
  have hidx : tree.size * block + left.length = (front ++ column left block).length := by
    rw [List.length_append, length_column, hfront, length_flatMap_column, h.size_eq hblocks,
      List.length_take_of_le (by rw [List.length_finRange]; exact Nat.le_of_lt block.isLt),
      Nat.mul_comm]
  rw [locate, hidx, hshows.locate_append, Codec.units_append, List.length_append, hfront]
  rfl

theorem Refines.value_eq (h : tree.Refines params rows) (block : Fin blocks) {idx : Nat}
    (hidx : idx < rows.length) : tree.value params block idx = some (rows[idx] block) := by
  have hblocks : 0 < blocks := Nat.lt_of_le_of_lt (Nat.zero_le _) block.isLt
  have hrows : rows = rows.take idx ++ rows[idx] :: rows.drop (idx + 1) := by simp
  have hsplit := h
  rw [hrows] at hsplit
  obtain ⟨front, back, hcolumns, hfront, -⟩ :=
    columnwise_split (rows.take idx) (rows[idx] :: rows.drop (idx + 1)) block
  have hshows := hsplit.shows
  rw [hcolumns, ← List.append_assoc] at hshows
  obtain ⟨hlt, hdecode⟩ := Stream.Shows.decode_eq hshows
  have hlocate : tree.locate params block idx
      = tree.stream.locate params (front ++ column (rows.take idx) block).length := by
    rw [hshows.locate_append, Codec.units_append, List.length_append, hfront]
    have := hsplit.locate_eq block
    rw [List.length_take_of_le (Nat.le_of_lt hidx)] at this
    exact this
  rw [← hlocate] at hlt hdecode
  rw [DenseTree.value]
  simp only [hdecode]
  rw [if_pos ⟨by rw [h.size_eq hblocks]; exact hidx, hlt⟩]

omit [AddCommMonoid Index] in
/-- What is read off the starts of the columns. -/
theorem map_columnStart {β : Type} (params : Params Data Value Index)
    (rows : List (Row Value blocks)) (f : Nat → Fin blocks → β) :
    (List.finRange blocks).map (fun block => f (columnStart params rows block) block)
      = (starts (fun block => (params.codec.units (column rows block)).length) 0
          (List.finRange blocks)).map fun e => f e.1 e.2 := by
  have hsum : ∀ columns : List (Fin blocks),
      (params.codec.units (columns.flatMap (column rows))).length
        = (columns.map fun block => (params.codec.units (column rows block)).length).sum := by
    intro columns
    induction columns with
    | nil => rfl
    | cons block columns ih =>
        rw [List.flatMap_cons, Codec.units_append, List.length_append, ih, List.map_cons,
          List.sum_cons]
  apply List.ext_getElem?
  intro k
  rw [List.getElem?_map, List.getElem?_map, getElem?_starts]
  cases hblock : (List.finRange blocks)[k]? with
  | none => rfl
  | some block =>
      have hk : (block : Nat) = k := by
        obtain ⟨hlt, rfl⟩ := List.getElem?_eq_some_iff.mp hblock
        simp
      simp only [Option.map_some, columnStart, hsum, hk, Nat.zero_add]

omit [AddCommMonoid Index] in
/-- The loop of an insertion, over any of the columns. -/
theorem insertColumns_spec (codec : Codec Data Value) (before behind : Fin blocks → List Data)
    (new : Fin blocks → List Value) :
    ∀ (columns : List (Fin blocks)) (done rest : List Data) (pos shift : Nat)
      (stream : Stream Data Index),
      stream.values = done ++ (columns.flatMap (fun b => before b ++ behind b) ++ rest) →
      stream.dataSize = done.length + (columns.flatMap fun b => before b ++ behind b).length →
      done.length = pos + shift →
      (columns.map fun b => (codec.units (new b)).length).sum ≤ rest.length →
      (insertColumns codec ((starts (fun b => (before b ++ behind b).length) pos columns).map
        fun e => (e.1 + (before e.2).length, new e.2)) shift stream).Carries
          (done ++ columns.flatMap fun b => before b ++ (codec.units (new b) ++ behind b)) := by
  intro columns
  induction columns with
  | nil =>
      intro done rest pos shift stream hdata hsize _ _
      refine ⟨⟨rest, ?_⟩, ?_⟩
      · simpa [insertColumns, starts] using hdata
      · simpa [insertColumns, starts] using hsize
  | cons b columns ih =>
      intro done rest pos shift stream hdata hsize hdone hroom
      rw [List.flatMap_cons] at hdata hsize
      rw [List.map_cons, List.sum_cons] at hroom
      simp only [List.length_append] at hsize
      have hdata' : stream.values = (done ++ before b)
          ++ ((behind b ++ columns.flatMap fun b => before b ++ behind b) ++ rest) := by
        rw [hdata]
        simp only [List.append_assoc]
      obtain ⟨hole, rest', hhole, hrest', hmoved⟩ := exists_moveUp (done ++ before b)
        (behind b ++ columns.flatMap fun b => before b ++ behind b) rest
        (codec.units (new b)).length (by omega)
      have hwritten := Stream.encodeAll_eq codec (new b) (done ++ before b) hole
        ((behind b ++ columns.flatMap fun b => before b ++ behind b) ++ rest') hhole
      have hpos : pos + (before b).length + shift = (done ++ before b).length := by
        rw [List.length_append]
        omega
      have hsize' : stream.dataSize - (done ++ before b).length
          = (behind b ++ columns.flatMap fun b => before b ++ behind b).length := by
        simp only [List.length_append]
        omega
      have hnext := ih (done ++ (before b ++ (codec.units (new b) ++ behind b))) rest'
        (pos + (before b ++ behind b).length) (shift + (codec.units (new b)).length)
        { stream with
          values := (done ++ before b) ++ (codec.units (new b)
            ++ ((behind b ++ columns.flatMap fun b => before b ++ behind b) ++ rest'))
          dataSize := stream.dataSize + (codec.units (new b)).length }
        (by simp only [List.append_assoc])
        (by simp only [List.length_append]; omega)
        (by simp only [List.length_append]; omega)
        (by omega)
      rw [starts, List.map_cons, insertColumns]
      simp only [← Codec.length_units, hpos, hsize']
      rw [hdata', hmoved, hwritten, List.flatMap_cons]
      rw [List.append_assoc done (before b ++ (codec.units (new b) ++ behind b))] at hnext
      exact hnext

omit [AddCommMonoid Index] in
/-- The loop of a removal, over any of the columns. -/
theorem removeColumns_spec (before gone behind : Fin blocks → List Data) :
    ∀ (columns : List (Fin blocks)) (done rest : List Data) {stream : Stream Data Index},
      stream.values
        = done ++ (columns.flatMap (fun b => before b ++ (gone b ++ behind b)) ++ rest) →
      stream.dataSize
        = done.length + (columns.flatMap fun b => before b ++ (gone b ++ behind b)).length →
      (removeColumns ((starts (fun b => (before b ++ (gone b ++ behind b)).length) done.length
        columns).map fun e => (e.1 + (before e.2).length, (gone e.2).length)) stream).Carries
          (done ++ columns.flatMap fun b => before b ++ behind b) := by
  intro columns
  induction columns with
  | nil =>
      intro done rest stream hdata hsize
      refine ⟨⟨rest, ?_⟩, ?_⟩
      · simpa [removeColumns, starts] using hdata
      · simpa [removeColumns, starts] using hsize
  | cons b columns ih =>
      intro done rest stream hdata hsize
      rw [List.flatMap_cons] at hdata hsize
      -- the later columns are done first
      have hlater := ih (done ++ (before b ++ (gone b ++ behind b))) rest
        (by rw [hdata]; simp only [List.append_assoc])
        (by rw [hsize]; simp only [List.length_append]; omega)
      have hparts : done ++ (before b ++ (gone b ++ behind b))
          ++ (columns.flatMap fun b => before b ++ behind b)
            = (done ++ before b) ++ (gone b ++ (behind b
              ++ columns.flatMap fun b => before b ++ behind b)) := by
        simp only [List.append_assoc]
      rw [hparts] at hlater
      have hmoved := hlater.moveDown
      simp only [List.length_append] at hmoved
      rw [starts, List.map_cons, removeColumns]
      simp only [List.length_append]
      rw [List.flatMap_cons]
      simp only [List.append_assoc] at hmoved ⊢
      exact hmoved

omit [AddCommMonoid Index] in
/-- The loop of a copy: what the source's slices hold stands between the two parts of each of the
target's columns. -/
theorem copyColumns_spec (params : Params Data Value Index) {source : Stream Data Index}
    (before behind moved : Fin blocks → List Data) (start : Fin blocks → Nat)
    (hmoved : ∀ b, (source.values.drop (start b)).take (moved b).length = moved b) :
    ∀ (columns : List (Fin blocks)) (done : List Data) (target : Stream Data Index),
      target.Carries (done ++ columns.flatMap fun b => before b ++ behind b) →
      (copyColumns params source (columns.map fun b =>
        ⟨(before b).length, start b, (moved b).length, (behind b).length⟩) done.length
          target).Carries (done ++ columns.flatMap fun b => before b ++ (moved b ++ behind b)) := by
  intro columns
  induction columns with
  | nil => exact fun done target h => h
  | cons b columns ih =>
      intro done target h
      have hparts : done ++ (b :: columns).flatMap (fun b => before b ++ behind b)
          = (done ++ before b) ++ (behind b ++ columns.flatMap fun b => before b ++ behind b) := by
        rw [List.flatMap_cons]
        simp only [List.append_assoc]
      rw [hparts] at h
      have hcopied := Stream.Carries.copyTo params (done ++ before b) h (hmoved b)
      have hparts' : (done ++ before b) ++ (moved b ++ (behind b
          ++ columns.flatMap fun b => before b ++ behind b))
            = (done ++ (before b ++ (moved b ++ behind b)))
              ++ columns.flatMap fun b => before b ++ behind b := by
        simp only [List.append_assoc]
      rw [hparts'] at hcopied
      have hnext := ih _ _ hcopied
      simp only [List.length_append] at hnext
      rw [List.map_cons, copyColumns, List.flatMap_cons]
      simp only [List.append_assoc, Nat.add_assoc] at hnext ⊢
      exact hnext

theorem units_columnwise (codec : Codec Data Value) (rows : List (Row Value blocks)) :
    codec.units (columnwise rows)
      = (List.finRange blocks).flatMap fun block => codec.units (column rows block) :=
  List.flatMap_assoc

/-- The codes of a column in two parts. -/
theorem units_columnwise_append (codec : Codec Data Value) (left right : List (Row Value blocks)) :
    codec.units (columnwise (left ++ right))
      = (List.finRange blocks).flatMap fun block =>
        codec.units (column left block) ++ codec.units (column right block) := by
  rw [units_columnwise]
  simp only [column_append, Codec.units_append]

theorem units_columnwise_three (codec : Codec Data Value)
    (left mid right : List (Row Value blocks)) :
    codec.units (columnwise (left ++ (mid ++ right)))
      = (List.finRange blocks).flatMap fun block => codec.units (column left block)
        ++ (codec.units (column mid block) ++ codec.units (column right block)) := by
  rw [units_columnwise]
  simp only [column_append, Codec.units_append]

/-- Positions of a row in all columns, as parts of the stream. -/
theorem Refines.map_locate {β : Type} (h : tree.Refines params (left ++ right))
    (f : Nat → Fin blocks → β) :
    (List.finRange blocks).map (fun block => f (tree.locate params block left.length) block)
      = (starts (fun block => (params.codec.units (column left block)
            ++ params.codec.units (column right block)).length) 0 (List.finRange blocks)).map
          fun e => f (e.1 + (params.codec.units (column left e.2)).length) e.2 := by
  have hstarts := map_columnStart params (left ++ right)
    fun p block => f (p + (params.codec.units (column left block)).length) block
  simp only [column_append, Codec.units_append] at hstarts
  rw [← hstarts]
  refine List.map_congr_left fun block _ => ?_
  rw [h.locate_eq block]

theorem Refines.insertEntries (h : tree.Refines params (left ++ right)) (hblocks : 0 < blocks)
    (entries : List (Row Value blocks)) :
    ∃ tree', tree.insertEntries params left.length entries = some tree' ∧
      tree'.Refines params (left ++ (entries ++ right)) := by
  have hle : left.length ≤ tree.size := by
    rw [h.size_eq hblocks, List.length_append]
    omega
  rw [DenseTree.insertEntries, if_pos hle]
  refine ⟨_, rfl, ?_, ?_⟩
  · simp only [h.metadataSize, List.length_append, Nat.add_mul]
    omega
  · have hcolumns := h.map_locate fun p block => (p, column entries block)
    have hcarries := h.shows.holds
    rw [Stream.Holds, units_columnwise_append] at hcarries
    have htotal : (((List.finRange blocks).map fun block => (tree.locate params block left.length,
        column entries block)).map fun c => Stream.totalLength params.codec c.2).sum
          = ((List.finRange blocks).map
            fun block => (params.codec.units (column entries block)).length).sum := by
      simp only [List.map_map, Codec.length_units]
      rfl
    obtain ⟨rest, hroom, hdata, hsize⟩ := hcarries.resize params (tree.stream.dataSize
      + ((List.finRange blocks).map
            fun block => (params.codec.units (column entries block)).length).sum)
      (by rw [← hcarries.dataSize]; omega)
    have hinserted := insertColumns_spec params.codec
      (fun block => params.codec.units (column left block))
      (fun block => params.codec.units (column right block)) (column entries)
      (List.finRange blocks) [] rest 0 0 _ (by rw [hdata, List.nil_append])
      (by rw [hsize, List.length_nil, Nat.zero_add]) rfl (by rw [hcarries.dataSize] at hroom; omega)
    rw [List.nil_append, ← units_columnwise_three] at hinserted
    have hshows := Stream.Holds.shows hinserted
    rw [← hcolumns, ← htotal] at hshows
    exact hshows

theorem Refines.remove (h : tree.Refines params (left ++ (mid ++ right))) (hblocks : 0 < blocks) :
    ∃ tree', tree.remove params left.length (left.length + mid.length) = some tree' ∧
      tree'.Refines params (left ++ right) := by
  have hsize := h.size_eq hblocks
  simp only [List.length_append] at hsize
  rw [DenseTree.remove, if_pos ⟨by omega, by omega⟩]
  by_cases hsome : left.length < left.length + mid.length
  · rw [if_pos hsome]
    refine ⟨_, rfl, ?_, ?_⟩
    · simp only [h.metadataSize, List.length_append, Nat.add_mul, Nat.add_sub_cancel_left]
      omega
    · have hlength : ∀ block, tree.locate params block (left.length + mid.length)
          - tree.locate params block left.length
            = (params.codec.units (column mid block)).length := by
        intro block
        have hstart := h.locate_eq block
        have h' := h
        rw [← List.append_assoc] at h'
        have hstop := h'.locate_eq block
        rw [List.length_append, column_append, Codec.units_append, List.length_append] at hstop
        rw [List.append_assoc] at hstop
        omega
      have hcolumns := h.map_locate
        fun p block => (p, (params.codec.units (column mid block)).length)
      simp only [column_append, Codec.units_append] at hcolumns
      obtain ⟨rest, hdata⟩ := h.shows.holds.data
      have hdataSize := h.shows.holds.dataSize
      rw [units_columnwise_three] at hdata hdataSize
      have hremoved := removeColumns_spec (fun block => params.codec.units (column left block))
        (fun block => params.codec.units (column mid block))
        (fun block => params.codec.units (column right block)) (List.finRange blocks) [] rest
        (by rw [hdata, List.nil_append]) (by rw [hdataSize, List.length_nil, Nat.zero_add])
      rw [List.nil_append, ← units_columnwise_append, List.length_nil, ← hcolumns] at hremoved
      simp only [hlength]
      obtain ⟨rest', -, hresized, -⟩ := hremoved.resize params _ (Nat.le_of_eq hremoved.dataSize.symm)
      have hholds : Stream.Holds params _ (columnwise (left ++ right)) :=
        ⟨⟨rest', hresized⟩, hremoved.dataSize⟩
      exact hholds.shows
  · have hnil : mid = [] := by
      rw [← List.length_eq_zero_iff]
      omega
    subst hnil
    rw [if_neg hsome]
    exact ⟨tree, rfl, h⟩

theorem not_mem_take_finRange {block : Fin blocks} :
    block ∉ (List.finRange blocks).take block := by
  intro hmem
  obtain ⟨i, hi, hget⟩ := List.mem_take_iff_getElem.mp hmem
  have heq := congrArg Fin.val hget
  simp at heq
  omega

theorem not_mem_drop_finRange {block : Fin blocks} :
    block ∉ (List.finRange blocks).drop (block + 1) := by
  intro hmem
  obtain ⟨i, hi, hget⟩ := List.mem_drop_iff_getElem.mp hmem
  have heq := congrArg Fin.val hget
  simp at heq
  omega

/-- Columns other than the updated one are as they were. -/
theorem flatMap_column_update {row row' : Row Value blocks} {block : Fin blocks}
    (hrow : ∀ b, b ≠ block → row' b = row b) (columns : List (Fin blocks))
    (hcolumns : block ∉ columns) :
    columns.flatMap (column (left ++ row' :: right))
      = columns.flatMap (column (left ++ row :: right)) := by
  induction columns with
  | nil => rfl
  | cons b columns ih =>
      obtain ⟨hne, hcolumns⟩ := not_or.mp (mt List.mem_cons.mpr hcolumns)
      rw [List.flatMap_cons, List.flatMap_cons, ih hcolumns]
      congr 1
      simp [column, hrow b (Ne.symm hne)]

theorem Refines.updateValue [DecidableEq Value] {row : Row Value blocks}
    (h : tree.Refines params (left ++ row :: right)) (block : Fin blocks)
    (update : Value → Value) :
    ∃ tree', tree.updateValue params block left.length update = some tree' ∧
      tree'.Refines params (left ++ Function.update row block (update (row block)) :: right) := by
  have hblocks : 0 < blocks := Nat.lt_of_le_of_lt (Nat.zero_le _) block.isLt
  have hlt : left.length < tree.size := by
    rw [h.size_eq hblocks, List.length_append, List.length_cons]
    omega
  rw [DenseTree.updateValue, if_pos hlt]
  refine ⟨_, rfl, ?_, ?_⟩
  · rw [h.metadataSize]
    simp
  · have hrow : ∀ b, b ≠ block → Function.update row block (update (row block)) b = row b :=
      fun b hb => Function.update_of_ne hb _ _
    obtain ⟨front, back, hcolumns, hfront, hback⟩ := columnwise_split left (row :: right) block
    obtain ⟨front', back', hcolumns', hfront', hback'⟩ :=
      columnwise_split left (Function.update row block (update (row block)) :: right) block
    rw [flatMap_column_update hrow _ not_mem_take_finRange] at hfront'
    rw [flatMap_column_update hrow _ not_mem_drop_finRange] at hback'
    rw [hfront', hback', ← hfront, ← hback] at hcolumns'
    have hidx : (block : Nat) * tree.size + left.length = (front ++ column left block).length := by
      rw [List.length_append, length_column, hfront, length_flatMap_column, h.size_eq hblocks,
        List.length_take_of_le (by rw [List.length_finRange]; exact Nat.le_of_lt block.isLt)]
    have hshows := h.shows
    rw [hcolumns, ← List.append_assoc] at hshows
    obtain ⟨hholds, hindexed⟩ := Stream.Holds.updateValue hshows.holds hshows.indexed update
    have hrow' : column (Function.update row block (update (row block)) :: right) block
        = update (row block) :: column right block := by
      simp [column]
    rw [hcolumns', hrow', ← List.append_assoc, hidx]
    exact ⟨hholds, hindexed⟩

theorem Refines.columnLength_eq (h : tree.Refines params rows) (block : Fin blocks) :
    tree.columnLength params block = (params.codec.units (column rows block)).length := by
  have hblocks : 0 < blocks := Nat.lt_of_le_of_lt (Nat.zero_le _) block.isLt
  have hnil : tree.Refines params ([] ++ rows) := h
  have hzero := hnil.locate_eq block
  have hlast : tree.Refines params (rows ++ []) := by
    rw [List.append_nil]
    exact h
  have hend := hlast.locate_eq block
  rw [List.append_nil] at hend
  rw [columnLength, h.size_eq hblocks, hend]
  rw [List.length_nil] at hzero
  rw [hzero]
  simp [column]

/-- The codes of a column from a row on, where they stand in the stream. -/
theorem Refines.slice (h : tree.Refines params (left ++ right)) (block : Fin blocks) :
    (tree.stream.values.drop (tree.locate params block left.length)).take
      (params.codec.units (column right block)).length = params.codec.units (column right block) := by
  obtain ⟨front, back, hcolumns, hfront, -⟩ := columnwise_split left right block
  have hslice := h.shows.slice (front ++ column left block) (column right block) back
    (by rw [hcolumns, List.append_assoc])
  rw [Codec.units_append, List.length_append, hfront] at hslice
  rw [h.locate_eq block]
  exact hslice

theorem Refines.splitTo (h : tree.Refines params (left ++ right))
    (hother : other.Refines params rows) (hblocks : 0 < blocks) :
    ∃ tree' other', tree.splitTo params other left.length = some (tree', other') ∧
      tree'.Refines params left ∧ other'.Refines params (right ++ rows) := by
  have hsize := h.size_eq hblocks
  rw [List.length_append] at hsize
  have htail : tree.Refines params (left ++ (right ++ [])) := by
    rw [List.append_nil]
    exact h
  obtain ⟨tree', hremove, htree'⟩ := htail.remove hblocks
  rw [← hsize] at hremove
  rw [List.append_nil] at htree'
  refine ⟨tree', _, by rw [DenseTree.splitTo, hremove]; rfl, htree', ?_, ?_⟩
  · simp only [hother.metadataSize, List.length_append, Nat.add_mul, hsize, Nat.add_sub_cancel_left]
    omega
  · have hlength : ∀ block, tree.locate params block tree.size
        - tree.locate params block left.length
          = (params.codec.units (column right block)).length := by
      intro block
      have hstart := h.locate_eq block
      have hall : tree.Refines params ((left ++ right) ++ []) := by
        rw [List.append_nil]
        exact h
      have hstop := hall.locate_eq block
      rw [List.append_nil, List.length_append, ← hsize, column_append, Codec.units_append,
        List.length_append] at hstop
      omega
    have hcarries := hother.shows.holds
    rw [Stream.Holds, units_columnwise] at hcarries
    have hcopied := copyColumns_spec params (fun _ => [])
      (fun block => params.codec.units (column rows block))
      (fun block => params.codec.units (column right block)) _ h.slice (List.finRange blocks) []
      other.stream hcarries
    rw [List.nil_append] at hcopied
    simp only [List.nil_append] at hcopied
    rw [← units_columnwise_append] at hcopied
    simp only [hlength, hother.columnLength_eq]
    exact Stream.Holds.shows hcopied

theorem Refines.mergeWith (h : tree.Refines params rows) (hother : other.Refines params left)
    (hblocks : 0 < blocks) : (tree.mergeWith params other).Refines params (left ++ rows) := by
  refine ⟨?_, ?_⟩
  · simp only [DenseTree.mergeWith, hother.metadataSize, h.size_eq hblocks, List.length_append,
      Nat.add_mul]
  · have hcarries := hother.shows.holds
    rw [Stream.Holds, units_columnwise] at hcarries
    have hslice : ∀ block, (tree.stream.values.drop (tree.locate params block 0)).take
        (params.codec.units (column rows block)).length = params.codec.units (column rows block) := by
      intro block
      have hnil : tree.Refines params ([] ++ rows) := h
      exact hnil.slice block
    have hcopied := copyColumns_spec params
      (fun block => params.codec.units (column left block)) (fun _ => [])
      (fun block => params.codec.units (column rows block)) _ hslice (List.finRange blocks) []
      other.stream (by simpa only [List.append_nil, List.nil_append] using hcarries)
    simp only [List.append_nil, List.nil_append] at hcopied
    rw [← units_columnwise_append] at hcopied
    simp only [DenseTree.mergeWith, h.columnLength_eq, hother.columnLength_eq]
    exact Stream.Holds.shows hcopied

end DenseTree

end Memoria.VleTree

import Memoria.FseTree
import Memoria.Lib.Run
import Mathlib.Data.Fin.VecNotation
import Mathlib.Data.List.GetD

/-!
# Updates of packed trees of values of a fixed size

Every update does to the rows what the list operation does, and ends with a `reindex`, unless an
insertion leaves it out.
-/

namespace Memoria.FseTree

open Lib

variable {α : Type} {blocks : Nat}

section Levels

theorem levelStart_succ {sizes : List Nat} {level : Nat} (h : level < sizes.length) :
    levelStart sizes (level + 1) = levelStart sizes level + sizes.getD level 0 := by
  rw [levelStart, levelStart, List.take_succ_eq_append_getElem h, List.sum_append,
    List.sum_singleton, List.getD_eq_getElem _ _ h]

theorem levelStart_mono (sizes : List Nat) {level level' : Nat} (h : level ≤ level') :
    levelStart sizes level ≤ levelStart sizes level' := by
  obtain ⟨d, rfl⟩ := Nat.exists_eq_add_of_le h
  rw [levelStart, levelStart, List.take_add, List.sum_append]
  exact Nat.le_add_right _ _

theorem levelStart_le_sum (sizes : List Nat) (level : Nat) : levelStart sizes level ≤ sizes.sum := by
  rw [← List.take_append_drop level sizes, List.sum_append, levelStart, List.take_append_drop]
  exact Nat.le_add_right _ _

/-- A window of the loops of `reindex_block`. -/
theorem window_eq (entries : List α) (start size width i : Nat) :
    (entries.drop (i * width + start)).take
        ((if (i + 1) * width ≤ size then (i + 1) * width else size) + start - (i * width + start)) =
      (((entries.drop start).take size).drop (i * width)).take width := by
  rw [List.drop_take, List.take_take, List.drop_drop, Nat.add_comm start]
  congr 1
  rw [Nat.succ_mul]
  split <;> omega

/-- A level that is written leaves those below it alone. -/
theorem levelEntries_overwrite {sizes : List Nat} {index units : List α} {level level' : Nat}
    (hroom : sizes.sum ≤ index.length) (hlevel : level < sizes.length)
    (hunits : units.length = sizes.getD level 0) (hlt : level < level') :
    levelEntries sizes (overwrite index (levelStart sizes level) units) level' =
      levelEntries sizes index level' := by
  have hstart := levelStart_succ hlevel
  have hsum := levelStart_le_sum sizes (level + 1)
  have hmono := levelStart_mono sizes (show level + 1 ≤ level' from hlt)
  rw [levelEntries, drop_overwrite (by omega) (by omega), levelEntries]

theorem levelEntries_overwrite_self {sizes : List Nat} {index units : List α} {level : Nat}
    (hroom : sizes.sum ≤ index.length) (hunits : units.length = sizes.getD level 0) :
    levelEntries sizes (overwrite index (levelStart sizes level) units) level = units := by
  rw [levelEntries, ← hunits]
  exact take_drop_overwrite (Nat.le_trans (levelStart_le_sum sizes level) hroom)

theorem length_overwrite_level {sizes : List Nat} {index units : List α} {level : Nat}
    (hroom : sizes.sum ≤ index.length) (hlevel : level < sizes.length)
    (hunits : units.length = sizes.getD level 0) :
    (overwrite index (levelStart sizes level) units).length = index.length := by
  have hstart := levelStart_succ hlevel
  have hsum := levelStart_le_sum sizes (level + 1)
  exact length_overwrite (by omega)

variable [AddCommMonoid α]

theorem upperLevel_eq (params : Params α) (index : List α) (start size levelSize : Nat) :
    upperLevel params index start size levelSize =
      blockSums params.branchingFactor ((index.drop start).take size) levelSize := by
  simp only [upperLevel, blockSums, window_eq]

theorem lowestLevel_eq (params : Params α) (values rest : List α) (levelSize : Nat) :
    lowestLevel params (values ++ rest) values.length levelSize =
      blockSums params.valuesPerBranch values levelSize := by
  have hwindow (i : Nat) := window_eq (values ++ rest) 0 values.length params.valuesPerBranch i
  simp only [Nat.add_zero, List.drop_zero, List.take_left] at hwindow
  simp only [lowestLevel, blockSums, hwindow]

theorem length_blockSums (width : Nat) (entries : List α) (count : Nat) :
    (blockSums width entries count).length = count := by
  rw [blockSums, List.length_map, List.length_range]

def IndexFrom (params : Params α) (sizes : List Nat) (values index : List α) (first : Nat) : Prop :=
  ∀ level, first ≤ level → level < sizes.length → levelEntries sizes index level =
    if level + 1 = sizes.length then
      blockSums params.valuesPerBranch values (sizes.getD level 0)
    else
      blockSums params.branchingFactor (levelEntries sizes index (level + 1)) (sizes.getD level 0)

variable {params : Params α} {sizes : List Nat} {values index : List α}

/-- The loop over the levels: each pass puts one more level in order. -/
theorem indexFrom_reindexUpper {level : Nat} (hlevel : level < sizes.length)
    (hroom : sizes.sum ≤ index.length) (h : IndexFrom params sizes values index level) :
    IndexFrom params sizes values (reindexUpper params sizes level index) 0 ∧
      (reindexUpper params sizes level index).length = index.length := by
  induction level generalizing index with
  | zero => exact ⟨h, rfl⟩
  | succ level ih =>
      have hlt : level < sizes.length := Nat.lt_of_succ_lt hlevel
      have hunits : (upperLevel params index (levelStart sizes (level + 1))
          (sizes.getD (level + 1) 0) (sizes.getD level 0)).length = sizes.getD level 0 := by
        rw [upperLevel_eq, length_blockSums]
      have hlength := length_overwrite_level hroom hlt hunits
      rw [reindexUpper, ← hlength]
      refine ih hlt (hlength ▸ hroom) fun level' hle hlt' => ?_
      rcases Nat.eq_or_lt_of_le hle with rfl | hbelow
      · rw [levelEntries_overwrite_self hroom hunits, if_neg (by omega),
          levelEntries_overwrite hroom hlt hunits (Nat.lt_succ_self level), upperLevel_eq]
        rfl
      · rw [levelEntries_overwrite hroom hlt hunits hbelow,
          levelEntries_overwrite hroom hlt hunits (Nat.lt_succ_of_lt hbelow)]
        exact h level' hbelow hlt'

theorem indexOf_reindexBlock {column : Column α} {rest : List α} (hsizes : 0 < sizes.length)
    (hvalues : column.values = values ++ rest) (hroom : sizes.sum ≤ column.index.length) :
    IndexOf params sizes values (reindexBlock params sizes values.length column).index ∧
      (reindexBlock params sizes values.length column).index.length = column.index.length := by
  have hlowest : sizes.length - 1 < sizes.length := by omega
  have hunits : (lowestLevel params column.values values.length
      (sizes.getD (sizes.length - 1) 0)).length = sizes.getD (sizes.length - 1) 0 := by
    rw [hvalues, lowestLevel_eq, length_blockSums]
  have hlength := length_overwrite_level hroom hlowest hunits
  rw [reindexBlock]
  dsimp only
  rw [← hlength]
  have hfrom : IndexFrom params sizes values
      (overwrite column.index (levelStart sizes (sizes.length - 1))
        (lowestLevel params column.values values.length (sizes.getD (sizes.length - 1) 0)))
      (sizes.length - 1) := by
    intro level hle hlt
    obtain rfl : level = sizes.length - 1 := by omega
    rw [levelEntries_overwrite_self hroom hunits, if_pos (by omega), hvalues, lowestLevel_eq]
  obtain ⟨hindex, hkept⟩ := indexFrom_reindexUpper hlowest (hlength ▸ hroom) hfrom
  exact ⟨fun level hlt => hindex level (Nat.zero_le level) hlt, hkept⟩

end Levels

namespace Tree

section Space

variable {params : Params α} {tree tree' : Tree α blocks} {rows left right mid : List (Row α blocks)}

theorem Carries.resize (h : tree.Carries params rows) {capacity : Nat} (hle : rows.length ≤ capacity)
    (hresize : tree.resize params capacity = some tree') :
    tree'.Carries params rows ∧ tree'.maxSize = capacity := by
  rw [Tree.resize, Option.ite_none_right_eq_some] at hresize
  obtain ⟨-, rfl⟩ := And.imp_right Option.some.inj hresize
  have hroom := params.le_segment capacity
  refine ⟨⟨h.size_eq, h.size_eq ▸ hle, rfl, fun block => ?_, fun block => ?_, fun block => ?_⟩, rfl⟩
  · obtain ⟨rest, hvalues⟩ := h.values block
    obtain ⟨rest', -, hresized⟩ := exists_resize params.junk (rows.map fun row => row block) rest
      (params.segment capacity) (by rw [List.length_map]; omega)
    exact ⟨rest', by rw [← hresized, ← hvalues]⟩
  · simp only [resizeSegment, List.length_append, List.length_take, List.length_replicate]
    omega
  · have := params.le_segment (FseTree.indexSize params capacity)
    simp only [resizeSegment, List.length_append, List.length_take, List.length_replicate]
    omega

/-- Other values in the same segments. -/
theorem Carries.replace (h : tree.Carries params rows) (rows' : List (Row α blocks))
    (hle : rows'.length ≤ tree.maxSize) (values : Fin blocks → List α)
    (hvalues : ∀ block, ∃ rest, values block = (rows'.map fun row => row block) ++ rest)
    (hlength : ∀ block, (values block).length = (tree.columns block).values.length) :
    Carries params
      { tree with
        size := rows'.length
        columns := fun block => { tree.columns block with values := values block } } rows' where
  size_eq := rfl
  size_le := hle
  indexSize_eq := h.indexSize_eq
  values := hvalues
  values_room block := (hlength block).symm ▸ h.values_room block
  index_room := h.index_room

theorem Carries.overwrite {new : List (Row α blocks)} (h : tree.Carries params (left ++ (mid ++ right)))
    (hnew : mid.length = new.length) {pos : Nat} (hpos : pos = left.length) :
    Carries params
      { tree with
        columns := fun block => { tree.columns block with
          values := Lib.overwrite (tree.columns block).values pos (new.map fun row => row block) } }
      (left ++ (new ++ right)) := by
  subst hpos
  have hsize : tree.size = (left ++ (new ++ right)).length := by
    rw [h.size_eq, List.length_append, List.length_append, List.length_append, List.length_append,
      hnew]
  have hcolumn (block : Fin blocks) : ∃ rest,
      Lib.overwrite (tree.columns block).values left.length (new.map fun row => row block) =
        ((left ++ (new ++ right)).map fun row => row block) ++ rest := by
    obtain ⟨rest, hvalues⟩ := h.values block
    have hput := overwrite_append (left.map fun row => row block) (mid.map fun row => row block)
      ((right.map fun row => row block) ++ rest) (new.map fun row => row block) (by simpa using hnew)
    rw [List.length_map] at hput
    refine ⟨rest, ?_⟩
    rw [hvalues]
    simpa using hput
  have hlength (block : Fin blocks) : (Lib.overwrite (tree.columns block).values left.length
      (new.map fun row => row block)).length = (tree.columns block).values.length := by
    have hroom := h.values_room block
    have hle := h.size_le
    rw [hsize] at hle
    simp only [List.length_append] at hle
    exact length_overwrite (by rw [List.length_map]; omega)
  have hreplace := h.replace _ (hsize ▸ h.size_le) _ hcolumn hlength
  rwa [← hsize] at hreplace

variable [AddCommMonoid α]

theorem Carries.makeRoom (h : tree.Carries params (left ++ right)) {roomLength : Nat}
    (hfits : tree.size + roomLength ≤ tree.maxSize) :
    Carries params
      { tree with
        size := tree.size + roomLength
        columns := fun block => { tree.columns block with
          values := Lib.overwrite
            (moveUnits (tree.columns block).values left.length (left.length + roomLength)
              (tree.size - left.length))
            left.length (List.replicate roomLength 0) } }
      (left ++ (List.replicate roomLength 0 ++ right)) := by
  have hsize := h.size_eq
  rw [List.length_append] at hsize
  have hlength : (left ++ (List.replicate roomLength (0 : Row α blocks) ++ right)).length =
      tree.size + roomLength := by
    simp only [List.length_append, List.length_replicate]
    omega
  have hback : tree.size - left.length = right.length := by omega
  have hcolumn (block : Fin blocks) : ∃ rest,
      Lib.overwrite (moveUnits (tree.columns block).values left.length (left.length + roomLength)
          (tree.size - left.length)) left.length (List.replicate roomLength 0) =
        ((left ++ (List.replicate roomLength (0 : Row α blocks) ++ right)).map fun row => row block)
          ++ rest ∧
      (tree.columns block).values.length = left.length + roomLength + right.length + rest.length := by
    obtain ⟨rest, hvalues⟩ := h.values block
    have hroom := h.values_room block
    rw [hvalues] at hroom
    simp only [List.length_append, List.length_map] at hroom
    obtain ⟨hole, rest', hhole, hrest', hmoved⟩ := exists_moveUp (left.map fun row => row block)
      (right.map fun row => row block) rest roomLength (by omega)
    have hput := overwrite_append (left.map fun row => row block) hole
      ((right.map fun row => row block) ++ rest') (List.replicate roomLength 0)
      (by rw [hhole, List.length_replicate])
    rw [List.length_map, List.length_map] at hmoved
    rw [List.length_map] at hput
    refine ⟨rest', ?_, ?_⟩
    · rw [hvalues, hback, List.map_append, List.append_assoc, hmoved, hput]
      simp
    · rw [hvalues]
      simp only [List.length_append, List.length_map]
      omega
  have hkept (block : Fin blocks) :
      (Lib.overwrite (moveUnits (tree.columns block).values left.length (left.length + roomLength)
          (tree.size - left.length)) left.length (List.replicate roomLength 0)).length =
        (tree.columns block).values.length := by
    obtain ⟨rest, hrest, htotal⟩ := hcolumn block
    rw [hrest, htotal]
    simp only [List.length_append, List.length_map, List.length_replicate]
    omega
  have hreplace := h.replace _ (hlength ▸ hfits) _
    (fun block => (hcolumn block).imp fun rest hrest => hrest.1) hkept
  rwa [hlength] at hreplace

theorem Carries.insertSpace (h : tree.Carries params (left ++ right)) {roomLength : Nat}
    (hspace : tree.insertSpace params left.length roomLength = some tree') :
    tree'.Carries params (left ++ (List.replicate roomLength 0 ++ right)) := by
  rw [Tree.insertSpace, Option.ite_none_left_eq_some] at hspace
  obtain ⟨-, hspace⟩ := hspace
  obtain ⟨resized, hresized, htree⟩ := Option.bind_eq_some_iff.mp hspace
  obtain rfl := Option.some.inj htree
  have hle := h.size_le
  have hsize := h.size_eq
  split at hresized
  · obtain ⟨hcarries, hmax⟩ := h.resize (by omega) hresized
    exact hcarries.makeRoom (by rw [hcarries.size_eq, hmax]; omega)
  · obtain rfl := Option.some.inj hresized
    exact h.makeRoom (by omega)

/-- The rows behind `mid` move down over it, and zeros take their place. -/
theorem Carries.closeRoom (h : tree.Carries params (left ++ (mid ++ right))) :
    Carries params
      { tree with
        size := tree.size - mid.length
        columns := fun block => { tree.columns block with
          values := Lib.overwrite
            (moveUnits (tree.columns block).values (left.length + mid.length) left.length
              (tree.size - (left.length + mid.length)))
            (left.length + (tree.size - (left.length + mid.length)))
            (List.replicate mid.length 0) } }
      (left ++ right) := by
  have hsize := h.size_eq
  have hle := h.size_le
  simp only [List.length_append] at hsize
  have hlength : (left ++ right).length = tree.size - mid.length := by
    rw [List.length_append]
    omega
  have hback : tree.size - (left.length + mid.length) = right.length := by omega
  have hcolumn (block : Fin blocks) : ∃ rest,
      Lib.overwrite (moveUnits (tree.columns block).values (left.length + mid.length) left.length
          (tree.size - (left.length + mid.length)))
          (left.length + (tree.size - (left.length + mid.length))) (List.replicate mid.length 0) =
        ((left ++ right).map fun row => row block) ++ rest ∧
      (tree.columns block).values.length = left.length + right.length + rest.length := by
    obtain ⟨rest, hvalues⟩ := h.values block
    obtain ⟨rest', hrest', hmoved⟩ := exists_moveDown (left.map fun row => row block)
      (mid.map fun row => row block) (right.map fun row => row block) rest
    have hput := overwrite_append ((left ++ right).map fun row => row block)
      (rest'.take mid.length) (rest'.drop mid.length) (List.replicate mid.length 0)
      (by rw [List.length_replicate, List.length_take_of_le (by rw [hrest', List.length_map]; omega)])
    simp only [List.length_map] at hmoved hrest'
    rw [List.take_append_drop, List.length_map, List.length_append] at hput
    refine ⟨List.replicate mid.length 0 ++ rest'.drop mid.length, ?_, ?_⟩
    · rw [hvalues, hback, List.map_append, List.map_append, List.append_assoc, List.append_assoc,
        hmoved, ← List.append_assoc, ← List.map_append, hput]
    · rw [hvalues]
      simp only [List.length_append, List.length_map, List.length_replicate, List.length_drop]
      omega
  have hkept (block : Fin blocks) :
      (Lib.overwrite (moveUnits (tree.columns block).values (left.length + mid.length) left.length
          (tree.size - (left.length + mid.length)))
          (left.length + (tree.size - (left.length + mid.length)))
          (List.replicate mid.length 0)).length = (tree.columns block).values.length := by
    obtain ⟨rest, hrest, htotal⟩ := hcolumn block
    rw [hrest, htotal]
    simp only [List.length_append, List.length_map]
  have hreplace := h.replace _ (show (left ++ right).length ≤ tree.maxSize by omega) _
    (fun block => (hcolumn block).imp fun rest hrest => hrest.1) hkept
  rwa [hlength] at hreplace

omit [AddCommMonoid α] in
theorem Carries.copyTo {other : Tree α blocks} {before new behind : List (Row α blocks)}
    (h : tree.Carries params (before ++ (new ++ behind)))
    (hother : other.Carries params (left ++ (mid ++ right))) (hnew : mid.length = new.length)
    {copyFrom count target : Nat} (hfrom : copyFrom = before.length) (hcount : count = new.length)
    (htarget : target = left.length) :
    (tree.copyTo other copyFrom count target).Carries params (left ++ (new ++ right)) := by
  have hcopied (block : Fin blocks) :
      ((tree.columns block).values.drop copyFrom).take count = new.map fun row => row block := by
    obtain ⟨rest, hvalues⟩ := h.values block
    rw [hvalues, hfrom, hcount, List.map_append, List.append_assoc]
    rw [List.drop_left' (List.length_map _), List.map_append, List.append_assoc]
    rw [List.take_left' (List.length_map _)]
  have hput := hother.overwrite hnew htarget
  simpa only [Tree.copyTo, hcopied] using hput

end Space

section Updates

variable [AddCommMonoid α] {params : Params α} {tree tree' other other' : Tree α blocks}
  {rows rows' : List (Row α blocks)}

structure Shows (params : Params α) (tree : Tree α blocks) (rows : List (Row α blocks)) : Prop where
  carries : tree.Carries params rows
  indexed : tree.Indexed params rows

/-- `reindex` puts the index of every column in order. -/
theorem Carries.reindex (h : tree.Carries params rows) : (tree.reindex params).Shows params rows := by
  have hsize (block : Fin blocks) : tree.size = (rows.map fun row => row block).length := by
    rw [List.length_map, h.size_eq]
  have hroom (block : Fin blocks) :
      (levelSizes params tree.maxSize).sum ≤ (tree.columns block).index.length := by
    have := h.index_room block
    rwa [h.indexSize_eq] at this
  by_cases hsizes : 0 < (levelSizes params tree.maxSize).length
  · have hcolumns (block : Fin blocks) : ((tree.reindex params).columns block) =
        reindexBlock params (levelSizes params tree.maxSize) (rows.map fun row => row block).length
          (tree.columns block) := by
      rw [Tree.reindex]
      dsimp only
      rw [if_pos hsizes, hsize block]
    have hindex (block : Fin blocks) :
        IndexOf params (levelSizes params tree.maxSize) (rows.map fun row => row block)
            (reindexBlock params (levelSizes params tree.maxSize)
              (rows.map fun row => row block).length (tree.columns block)).index ∧
          (reindexBlock params (levelSizes params tree.maxSize)
              (rows.map fun row => row block).length (tree.columns block)).index.length =
            (tree.columns block).index.length := by
      obtain ⟨rest, hvalues⟩ := h.values block
      exact indexOf_reindexBlock hsizes hvalues (hroom block)
    refine ⟨⟨h.size_eq, h.size_le, rfl, fun block => ?_, fun block => ?_, fun block => ?_⟩, ?_⟩
    · rw [hcolumns]
      exact h.values block
    · rw [hcolumns]
      exact h.values_room block
    · rw [hcolumns, (hindex block).2]
      exact hroom block
    · intro block
      rw [hcolumns]
      exact (hindex block).1
  · have hcolumns : (tree.reindex params).columns = tree.columns := by
      rw [Tree.reindex]
      simp only [hsizes, if_false]
    refine ⟨⟨h.size_eq, h.size_le, rfl, fun block => ?_, fun block => ?_, fun block => ?_⟩, ?_⟩
    · rw [hcolumns]
      exact h.values block
    · rw [hcolumns]
      exact h.values_room block
    · rw [hcolumns]
      exact hroom block
    · intro block level hlevel
      exact absurd (Nat.zero_lt_of_lt hlevel) hsizes

theorem insertSpace_le {idx roomLength : Nat}
    (h : tree.insertSpace params idx roomLength = some tree') : idx ≤ tree.size := by
  rw [Tree.insertSpace, Option.ite_none_left_eq_some] at h
  exact Nat.not_lt.mp h.1

theorem Carries.insertEntries (h : tree.Carries params rows) {rowAt : Nat}
    {entries : List (Row α blocks)} {reindex : Bool}
    (hinsert : tree.insertEntries params rowAt entries reindex = some tree') :
    tree'.Carries params (rows.take rowAt ++ entries ++ rows.drop rowAt) ∧
      (reindex = true → tree'.Indexed params (rows.take rowAt ++ entries ++ rows.drop rowAt)) := by
  obtain ⟨spaced, hspace, htree⟩ := Option.bind_eq_some_iff.mp hinsert
  obtain rfl := Option.some.inj htree
  have hle := insertSpace_le hspace
  have hrow : rowAt = (rows.take rowAt).length := by
    rw [List.length_take_of_le (h.size_eq ▸ hle)]
  rw [← List.take_append_drop rowAt rows] at h
  nth_rewrite 1 [hrow] at hspace
  have hfilled := (h.insertSpace hspace).overwrite (List.length_replicate) hrow
  rw [List.append_assoc]
  cases reindex with
  | true => exact ⟨hfilled.reindex.carries, fun _ => hfilled.reindex.indexed⟩
  | false => exact ⟨hfilled, nofun⟩

theorem Carries.remove (h : tree.Carries params rows) {start stop : Nat}
    (hremove : tree.remove params start stop = some tree') :
    tree'.Shows params (rows.take start ++ rows.drop stop) := by
  rw [Tree.remove, Option.ite_none_right_eq_some] at hremove
  obtain ⟨⟨hstart, hstop⟩, hremove⟩ := hremove
  obtain ⟨resized, hresize, htree⟩ := Option.bind_eq_some_iff.mp hremove
  obtain rfl := Option.some.inj htree
  have hsize := h.size_eq
  have hle := h.size_le
  have hsplit : rows = rows.take start ++ ((rows.drop start).take (stop - start) ++ rows.drop stop) := by
    have hmid := List.take_append_drop (stop - start) (rows.drop start)
    rw [List.drop_drop, Nat.add_sub_cancel' hstart] at hmid
    rw [hmid, List.take_append_drop]
  have hfront : (rows.take start).length = start := List.length_take_of_le (by omega)
  have hmid : ((rows.drop start).take (stop - start)).length = stop - start :=
    List.length_take_of_le (by rw [List.length_drop]; omega)
  rw [hsplit] at h
  have hclosed := h.closeRoom
  rw [hfront, hmid, Nat.add_sub_cancel' hstart] at hclosed
  have hroom : (rows.take start ++ rows.drop stop).length ≤ tree.maxSize - (stop - start) := by
    rw [List.length_append, hfront, List.length_drop]
    omega
  exact (hclosed.resize hroom hresize).1.reindex

theorem Carries.splitTo (h : tree.Carries params rows) (hother : other.Carries params rows') {idx : Nat}
    (hidx : idx < tree.size) (hsplit : tree.splitTo params other idx = some (tree', other')) :
    tree'.Shows params (rows.take idx) ∧ other'.Shows params (rows.drop idx ++ rows') := by
  rw [Tree.splitTo] at hsplit
  dsimp only at hsplit
  rw [if_pos (Nat.sub_pos_of_lt hidx)] at hsplit
  obtain ⟨spaced, hspace, hsplit⟩ := Option.bind_eq_some_iff.mp hsplit
  obtain ⟨removed, hremove, htrees⟩ := Option.bind_eq_some_iff.mp hsplit
  obtain ⟨rfl, rfl⟩ := Prod.mk.inj (Option.some.inj htrees)
  have hsize := h.size_eq
  have hcount : (rows.drop idx).length = tree.size - idx := by rw [List.length_drop, hsize]
  rw [← List.nil_append rows'] at hother
  have hspaced := hother.insertSpace hspace
  constructor
  · have hshows := h.remove hremove
    rw [hsize, List.drop_length, List.append_nil] at hshows
    exact hshows.carries.reindex
  · have hrows : tree.Carries params (rows.take idx ++ (rows.drop idx ++ [])) := by
      rwa [List.append_nil, List.take_append_drop]
    have hcopied := hrows.copyTo hspaced (by rw [List.length_replicate, hcount])
      (List.length_take_of_le (by omega)).symm hcount.symm rfl
    exact hcopied.reindex

theorem splitTo_behind {idx : Nat} (hidx : tree.size ≤ idx) :
    tree.splitTo params other idx = some (tree, other) := by
  rw [Tree.splitTo]
  dsimp only
  rw [if_neg (by omega)]

theorem Carries.mergeWith (h : tree.Carries params rows) (hother : other.Carries params rows')
    (hmerge : tree.mergeWith params other = some other') : other'.Shows params (rows' ++ rows) := by
  obtain ⟨spaced, hspace, htree⟩ := Option.bind_eq_some_iff.mp hmerge
  obtain rfl := Option.some.inj htree
  rw [hother.size_eq] at hspace
  rw [← List.append_nil rows'] at hother
  have hrows : tree.Carries params ([] ++ (rows ++ [])) := by rwa [List.append_nil]
  have hcopied := hrows.copyTo (hother.insertSpace hspace) (by rw [List.length_replicate, h.size_eq])
    rfl h.size_eq (show other.size = rows'.length by simpa using hother.size_eq)
  rw [List.append_nil] at hcopied
  exact hcopied.reindex

theorem blockSums_zero (width : Nat) {entries : List α} (h : ∀ e ∈ entries, e = 0) (count : Nat) :
    blockSums width entries count = List.replicate count 0 := by
  have hwindow (i : Nat) : ((entries.drop (i * width)).take width).sum = 0 :=
    List.sum_eq_zero fun e he => h e (List.mem_of_mem_drop (List.mem_of_mem_take he))
  simp only [blockSums, hwindow, List.map_const', List.length_range]

theorem levelEntries_replicate {sizes : List Nat} {n level : Nat} (hn : sizes.sum ≤ n)
    (hlevel : level < sizes.length) :
    levelEntries sizes (List.replicate n (0 : α)) level = List.replicate (sizes.getD level 0) 0 := by
  have hstart := levelStart_succ hlevel
  have hsum := levelStart_le_sum sizes (level + 1)
  rw [levelEntries, List.drop_replicate, List.take_replicate, Nat.min_eq_left (by omega)]

/-- A new tree is empty, and its index is one of zeros. -/
theorem init_shows (capacity : Nat) : (init params capacity : Tree α blocks).Shows params [] := by
  have hindex := params.le_segment (FseTree.indexSize params capacity)
  refine ⟨⟨rfl, Nat.zero_le _, rfl, fun block => ⟨_, rfl⟩, fun block => ?_, fun block => ?_⟩, ?_⟩
  · exact (params.le_segment capacity).trans_eq List.length_replicate.symm
  · exact hindex.trans_eq List.length_replicate.symm
  · intro block
    change IndexOf params (levelSizes params capacity) []
      (List.replicate (params.segment (FseTree.indexSize params capacity)) 0)
    intro level hlevel
    rw [levelEntries_replicate hindex hlevel]
    split
    · rw [blockSums_zero _ nofun]
    · rw [levelEntries_replicate hindex (show level + 1 < _ by omega), blockSums_zero]
      exact fun e he => List.eq_of_mem_replicate he

end Updates

end Tree

namespace Session

variable {ι : Type} [DecidableEq ι] [AddCommMonoid α] {params : Params α} {s s' : Session ι α blocks}

structure Right (params : Params α) (s : Session ι α blocks) : Prop where
  carries : ∀ t, (s.trees t).Carries params (s.rows t)
  indexed : ∀ t, s.deferred t = false → (s.trees t).Indexed params (s.rows t)

theorem Right.put (h : s.Right params) (t : ι) {tree : Tree α blocks} {rows : List (Row α blocks)}
    {deferred : Bool} (hcarries : tree.Carries params rows)
    (hindexed : deferred = false → tree.Indexed params rows) :
    (s.put t tree rows deferred).Right params := by
  constructor
  · intro t'
    by_cases ht : t' = t
    · subst ht
      simpa [Session.put] using hcarries
    · simpa [Session.put, ht] using h.carries t'
  · intro t'
    by_cases ht : t' = t
    · subst ht
      simpa [Session.put] using hindexed
    · simpa [Session.put, ht] using h.indexed t'

theorem Right.splitTo (h : s.Right params) {t other : ι} {idx : Nat}
    (hstep : s.step params (.splitTo t other idx) = some s') : s'.Right params := by
  rw [Session.step, Option.ite_none_left_eq_some] at hstep
  obtain ⟨-, hstep⟩ := hstep
  obtain ⟨⟨tree, otherTree⟩, hsplit, hs'⟩ := Option.bind_eq_some_iff.mp hstep
  obtain rfl := Option.some.inj hs'
  by_cases hidx : (s.trees t).size ≤ idx
  · obtain ⟨rfl, rfl⟩ := Prod.mk.inj (Option.some.inj ((Tree.splitTo_behind hidx).symm.trans hsplit))
    rw [(h.carries t).size_eq] at hidx
    have hsame : (decide ((s.trees t).size ≤ idx)) = true := by
      rw [(h.carries t).size_eq]
      exact decide_eq_true hidx
    simp only [hsame, Bool.true_and, List.take_of_length_le hidx, List.drop_of_length_le hidx,
      List.nil_append]
    exact (h.put t (h.carries t) (h.indexed t)).put other (h.carries other) (h.indexed other)
  · obtain ⟨htree, hother⟩ :=
      (h.carries t).splitTo (h.carries other) (Nat.not_le.mp hidx) hsplit
    exact (h.put t htree.carries fun _ => htree.indexed).put other hother.carries
      fun _ => hother.indexed

/-- An operation keeps every tree right for its list of rows. -/
theorem Right.step (h : s.Right params) {op : Op ι α blocks} (hstep : s.step params op = some s') :
    s'.Right params := by
  cases op with
  | insertEntries t rowAt entries reindex =>
      obtain ⟨tree, hinsert, hs'⟩ := Option.bind_eq_some_iff.mp hstep
      obtain rfl := Option.some.inj hs'
      obtain ⟨hcarries, hindexed⟩ := (h.carries t).insertEntries hinsert
      exact h.put t hcarries fun hnow => hindexed (by simpa using hnow)
  | remove t start stop =>
      obtain ⟨tree, hremove, hs'⟩ := Option.bind_eq_some_iff.mp hstep
      obtain rfl := Option.some.inj hs'
      have hshows := (h.carries t).remove hremove
      exact h.put t hshows.carries fun _ => hshows.indexed
  | splitTo t other idx => exact h.splitTo hstep
  | mergeWith t other =>
      rw [Session.step, Option.ite_none_left_eq_some] at hstep
      obtain ⟨otherTree, hmerge, hs'⟩ := Option.bind_eq_some_iff.mp hstep.2
      obtain rfl := Option.some.inj hs'
      have hshows := (h.carries t).mergeWith (h.carries other) hmerge
      exact h.put other hshows.carries fun _ => hshows.indexed
  | reindex t =>
      obtain rfl := Option.some.inj hstep
      have hshows := (h.carries t).reindex
      exact h.put t hshows.carries fun _ => hshows.indexed

/-- Runs of updates are list operations: in every state every column has the values of the rows, all
columns have one size, and every index is in order, save that of a tree whose last update was an
insertion without `reindex`. -/
theorem run_carries_rows (params : Params α) (capacity : ι → Nat) (ops : List (Op ι α blocks)) :
    EveryState (Session.step params)
      (fun s => ∀ t, (s.trees t).size = (s.rows t).length ∧
        (∀ block, ((s.trees t).columns block).values.take (s.trees t).size =
          (s.rows t).map fun row => row block) ∧
        (s.deferred t = false → (s.trees t).Indexed params (s.rows t)))
      (Session.start params capacity) ops := by
  have hstart : (Session.start params capacity : Session ι α blocks).Right params :=
    ⟨fun t => (Tree.init_shows (capacity t)).carries,
      fun t _ => (Tree.init_shows (capacity t)).indexed⟩
  refine EveryState.of_invariant (P := fun _ _ => True) (fun s op s' h _ hstep => h.step hstep) ?_ hstart
    (EveryStep.trivial_of (fun _ _ => trivial) _ _)
  intro s h t
  refine ⟨(h.carries t).size_eq, fun block => ?_, h.indexed t⟩
  obtain ⟨rest, hvalues⟩ := (h.carries t).values block
  rw [hvalues, (h.carries t).size_eq]
  exact List.take_left' (List.length_map _)

end Session

theorem thirtyTwo_pos : 0 < 32 := by decide

theorem two_le_thirtyTwo : 2 ≤ 32 := by decide

def quickTreeParams : Params Nat where
  valuesPerBranch := 32
  branchingFactor := 32
  segment size := size
  fits _ := true
  junk := 0
  values_pos := thirtyTwo_pos
  two_le := two_le_thirtyTwo
  le_segment := Nat.le_refl

def bareInsertion : Op Unit Nat 1 := .insertEntries () 0 (List.replicate 33 fun _ => 1) false

theorem bareInsertion_not_indexed :
    ∃ s, Session.step quickTreeParams (Session.start quickTreeParams fun _ => 0) bareInsertion = some s ∧
      ¬ (s.trees ()).Indexed quickTreeParams (s.rows ()) := by
  refine ⟨_, rfl, fun hindexed => ?_⟩
  have hlowest := hindexed 0 1 (by decide +kernel)
  exact absurd hlowest (by decide +kernel)

end Memoria.FseTree

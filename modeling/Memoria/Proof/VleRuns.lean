import Memoria.Proof.VleTree
import Mathlib

namespace Memoria.VleTree

/-! Runs of updates over families of trees of variable-length codes. -/

section Lawful

variable {Tree Value : Type} {blocks : Nat}

structure TreeOps.Lawful (ops : TreeOps Tree Value blocks)
    (Refines : Tree → List (Row Value blocks) → Prop) : Prop where
  insertEntries_le : ∀ {tree tree' rows pos entries}, Refines tree rows →
    ops.insertEntries tree pos entries = some tree' → pos ≤ rows.length
  insertEntries : ∀ {tree left right} entries, Refines tree (left ++ right) →
    ∃ tree', ops.insertEntries tree left.length entries = some tree' ∧
      Refines tree' (left ++ (entries ++ right))
  remove_le : ∀ {tree tree' rows start stop}, Refines tree rows →
    ops.remove tree start stop = some tree' → start ≤ stop ∧ stop ≤ rows.length
  remove : ∀ {tree left mid right}, Refines tree (left ++ (mid ++ right)) →
    ∃ tree', ops.remove tree left.length (left.length + mid.length) = some tree' ∧
      Refines tree' (left ++ right)
  updateValue_lt : ∀ {tree tree' rows block idx update}, Refines tree rows →
    ops.updateValue tree block idx update = some tree' → idx < rows.length
  updateValue : ∀ {tree left row right} block update, Refines tree (left ++ row :: right) →
    ∃ tree', ops.updateValue tree block left.length update = some tree' ∧
      Refines tree' (left ++ Function.update row block (update (row block)) :: right)
  splitTo_le : ∀ {tree other trees rows idx}, Refines tree rows →
    ops.splitTo tree other idx = some trees → idx ≤ rows.length
  splitTo : ∀ {tree other left right rows}, Refines tree (left ++ right) → Refines other rows →
    ∃ tree' other', ops.splitTo tree other left.length = some (tree', other') ∧
      Refines tree' left ∧ Refines other' (right ++ rows)
  mergeWith : ∀ {tree other left rows}, Refines tree rows → Refines other left →
    Refines (ops.mergeWith tree other) (left ++ rows)

def updateRow (block : Fin blocks) (update : Value → Value) (row : Row Value blocks) :
    Row Value blocks := Function.update row block (update (row block))

variable {ops : TreeOps Tree Value blocks} {Refines : Tree → List (Row Value blocks) → Prop}
  {tree tree' other other' : Tree} {rows rows' entries : List (Row Value blocks)}

theorem TreeOps.Lawful.insertEntries_take (h : ops.Lawful Refines) (hrows : Refines tree rows)
    {pos : Nat} (hinsert : ops.insertEntries tree pos entries = some tree') :
    Refines tree' (rows.take pos ++ entries ++ rows.drop pos) := by
  have hle := h.insertEntries_le hrows hinsert
  rw [← List.take_append_drop pos rows] at hrows
  obtain ⟨next, hnext, hrefines⟩ := h.insertEntries entries hrows
  rw [List.length_take_of_le hle, hinsert] at hnext
  cases hnext
  rwa [List.append_assoc]

theorem TreeOps.Lawful.remove_take (h : ops.Lawful Refines) (hrows : Refines tree rows)
    {start stop : Nat} (hremove : ops.remove tree start stop = some tree') :
    Refines tree' (rows.take start ++ rows.drop stop) := by
  obtain ⟨hle, hstop⟩ := h.remove_le hrows hremove
  have hmid : rows.drop start = (rows.drop start).take (stop - start) ++ rows.drop stop := by
    nth_rewrite 1 [← List.take_append_drop (stop - start) (rows.drop start)]
    rw [List.drop_drop, Nat.add_sub_cancel' hle]
  rw [← List.take_append_drop start rows, hmid] at hrows
  obtain ⟨next, hnext, hrefines⟩ := h.remove hrows
  have hlength : ((rows.drop start).take (stop - start)).length = stop - start := by
    rw [List.length_take_of_le]
    rw [List.length_drop]
    omega
  rw [List.length_take_of_le (Nat.le_trans hle hstop), hlength, Nat.add_sub_cancel' hle, hremove]
    at hnext
  cases hnext
  exact hrefines

theorem TreeOps.Lawful.updateValue_modify (h : ops.Lawful Refines) (hrows : Refines tree rows)
    {block : Fin blocks} {idx : Nat} {update : Value → Value}
    (hupdate : ops.updateValue tree block idx update = some tree') :
    Refines tree' (rows.modify idx (updateRow block update)) := by
  have hlt := h.updateValue_lt hrows hupdate
  have hsplit : rows = rows.take idx ++ rows[idx] :: rows.drop (idx + 1) := by simp
  rw [hsplit] at hrows
  obtain ⟨next, hnext, hrefines⟩ := h.updateValue block update hrows
  rw [List.length_take_of_le (Nat.le_of_lt hlt), hupdate] at hnext
  cases hnext
  rwa [List.modify_eq_take_cons_drop hlt]

theorem TreeOps.Lawful.splitTo_take (h : ops.Lawful Refines) (hrows : Refines tree rows)
    (hother : Refines other rows') {idx : Nat}
    (hsplit : ops.splitTo tree other idx = some (tree', other')) :
    Refines tree' (rows.take idx) ∧ Refines other' (rows.drop idx ++ rows') := by
  have hle := h.splitTo_le hrows hsplit
  rw [← List.take_append_drop idx rows] at hrows
  obtain ⟨next, next', hnext, hrefines⟩ := h.splitTo hrows hother
  rw [List.length_take_of_le hle, hsplit] at hnext
  cases hnext
  exact hrefines

end Lawful

section Runs

variable {Tree Value ι : Type} {blocks : Nat} [DecidableEq ι]

def edit (lists : ι → List (Row Value blocks)) : Op ι Value blocks → ι → List (Row Value blocks)
  | .insertEntries t pos entries =>
    Function.update lists t ((lists t).take pos ++ entries ++ (lists t).drop pos)
  | .remove t start stop =>
    Function.update lists t ((lists t).take start ++ (lists t).drop stop)
  | .updateValue t block idx update =>
    Function.update lists t ((lists t).modify idx (updateRow block update))
  | .splitTo t other idx =>
    Function.update (Function.update lists t ((lists t).take idx)) other
      ((lists t).drop idx ++ lists other)
  | .mergeWith t other => Function.update lists other (lists other ++ lists t)

variable {ops : TreeOps Tree Value blocks} {Refines : Tree → List (Row Value blocks) → Prop}
  {trees trees' : ι → Tree} {lists : ι → List (Row Value blocks)}

theorem refines_update (h : ∀ t, Refines (trees t) (lists t)) {tree : Tree}
    {rows : List (Row Value blocks)} {t : ι} (ht : Refines tree rows) (c : ι) :
    Refines (Function.update trees t tree c) (Function.update lists t rows c) := by
  by_cases hc : c = t
  · subst hc
    rwa [Function.update_self, Function.update_self]
  · rw [Function.update_of_ne hc, Function.update_of_ne hc]
    exact h c

theorem refines_step (hlaw : ops.Lawful Refines) {op : Op ι Value blocks}
    (h : ∀ t, Refines (trees t) (lists t)) (hstep : step ops trees op = some trees') :
    ∀ t, Refines (trees' t) (edit lists op t) := by
  cases op with
  | insertEntries t pos entries =>
      simp only [step, Option.bind_eq_bind, Option.bind_eq_some_iff, Option.pure_def,
        Option.some.injEq] at hstep
      obtain ⟨tree, hinsert, rfl⟩ := hstep
      exact refines_update h (hlaw.insertEntries_take (h t) hinsert)
  | remove t start stop =>
      simp only [step, Option.bind_eq_bind, Option.bind_eq_some_iff, Option.pure_def,
        Option.some.injEq] at hstep
      obtain ⟨tree, hremove, rfl⟩ := hstep
      exact refines_update h (hlaw.remove_take (h t) hremove)
  | updateValue t block idx update =>
      simp only [step, Option.bind_eq_bind, Option.bind_eq_some_iff, Option.pure_def,
        Option.some.injEq] at hstep
      obtain ⟨tree, hupdate, rfl⟩ := hstep
      exact refines_update h (hlaw.updateValue_modify (h t) hupdate)
  | splitTo t other idx =>
      simp only [step, Option.bind_eq_bind, Option.bind_eq_some_iff, Option.pure_def,
        Option.some.injEq, Option.ite_none_left_eq_some, Prod.exists] at hstep
      obtain ⟨-, tree, moved, hsplit, rfl⟩ := hstep
      obtain ⟨htree, hmoved⟩ := hlaw.splitTo_take (h t) (h other) hsplit
      exact refines_update (refines_update h htree) hmoved
  | mergeWith t other =>
      simp only [step, Option.ite_none_left_eq_some, Option.some.injEq] at hstep
      obtain ⟨-, rfl⟩ := hstep
      exact refines_update h (hlaw.mergeWith (h t) (h other))

/-- From the rules for one operation, by induction on the run. -/
theorem refines_run (hlaw : ops.Lawful Refines) {run : List (Op ι Value blocks)}
    (h : ∀ t, Refines (trees t) (lists t)) (hrun : run.foldlM (step ops) trees = some trees') :
    ∀ t, Refines (trees' t) (run.foldl edit lists t) := by
  induction run generalizing trees lists with
  | nil =>
      cases hrun
      exact h
  | cons op run ih =>
      simp only [List.foldlM_cons, Option.bind_eq_bind, Option.bind_eq_some_iff] at hrun
      obtain ⟨next, hstep, hrun⟩ := hrun
      exact ih (refines_step hlaw h hstep) hrun

end Runs

variable {Data Value Index : Type} {blocks : Nat} [AddCommMonoid Index]
  {params : Params Data Value Index} {rows : List (Row Value blocks)}

theorem QuickTree.lawful [DecidableEq Value] :
    (QuickTree.ops params blocks).Lawful (Refines params) where
  insertEntries_le := by
    intro tree tree' rows pos entries h hinsert
    simp only [ops, insertEntries, Option.ite_none_right_eq_some] at hinsert
    rw [← h.size]
    exact hinsert.1
  insertEntries entries h := h.insertEntries entries
  remove_le := by
    intro tree tree' rows start stop h hremove
    simp only [ops, remove, Option.ite_none_right_eq_some] at hremove
    rw [← h.size]
    exact hremove.1
  remove h := h.remove
  updateValue_lt := by
    intro tree tree' rows block idx update h hupdate
    simp only [ops, updateValue, Option.ite_none_right_eq_some] at hupdate
    rw [← h.size]
    exact hupdate.1
  updateValue block update h := h.updateValue block update
  splitTo_le := by
    intro tree other trees rows idx h hsplit
    simp only [ops, splitTo, remove, Option.bind_eq_bind, Option.bind_eq_some_iff,
      Option.ite_none_right_eq_some] at hsplit
    obtain ⟨_, ⟨⟨hle, -⟩, -⟩, -⟩ := hsplit
    rw [← h.size]
    exact hle
  splitTo h hother := h.splitTo hother
  mergeWith h hother := h.mergeWith hother

theorem DenseTree.lawful [DecidableEq Value] (hblocks : 0 < blocks) :
    (DenseTree.ops params blocks).Lawful (Refines params) where
  insertEntries_le := by
    intro tree tree' rows pos entries h hinsert
    simp only [ops, insertEntries, Option.ite_none_right_eq_some] at hinsert
    rw [← h.size_eq hblocks]
    exact hinsert.1
  insertEntries entries h := h.insertEntries hblocks entries
  remove_le := by
    intro tree tree' rows start stop h hremove
    simp only [ops, remove, Option.ite_none_right_eq_some] at hremove
    rw [← h.size_eq hblocks]
    exact hremove.1
  remove h := h.remove hblocks
  updateValue_lt := by
    intro tree tree' rows block idx update h hupdate
    simp only [ops, updateValue, Option.ite_none_right_eq_some] at hupdate
    rw [← h.size_eq hblocks]
    exact hupdate.1
  updateValue block update h := h.updateValue block update
  splitTo_le := by
    intro tree other trees rows idx h hsplit
    simp only [ops, splitTo, remove, Option.bind_eq_bind, Option.bind_eq_some_iff,
      Option.ite_none_right_eq_some] at hsplit
    obtain ⟨_, ⟨⟨hle, -⟩, -⟩, -⟩ := hsplit
    rw [← h.size_eq hblocks]
    exact hle
  splitTo h hother := h.splitTo hother hblocks
  mergeWith h hother := h.mergeWith hother hblocks

structure QuickTree.Shows (params : Params Data Value Index) (tree : QuickTree Data Index blocks)
    (rows : List (Row Value blocks)) : Prop where
  size : tree.size = rows.length
  value : ∀ block idx, tree.value params block idx = (column rows block)[idx]?
  dataSize : ∀ block,
    (tree.columns block).dataSize = Stream.totalLength params.codec (column rows block)
  indexed : ∀ block, (tree.columns block).Indexed params (column rows block)

theorem QuickTree.Refines.toShows {tree : QuickTree Data Index blocks}
    (h : tree.Refines params rows) : tree.Shows params rows where
  size := h.size
  value := by
    intro block idx
    by_cases hidx : idx < rows.length
    · rw [h.value_eq block hidx]
      simp [column, hidx]
    · rw [QuickTree.value, if_neg (by rw [h.size]; exact fun hlt => hidx hlt.1)]
      simp [column, Nat.not_lt.mp hidx]
  dataSize := by
    intro block
    rw [(h.shows block).holds.dataSize, Codec.length_units]
  indexed block := (h.shows block).indexed

structure DenseTree.Shows (params : Params Data Value Index) (tree : DenseTree Data Index blocks)
    (rows : List (Row Value blocks)) : Prop where
  size : tree.size = rows.length
  value : ∀ block idx, tree.value params block idx = (column rows block)[idx]?
  dataSize : tree.stream.dataSize = Stream.totalLength params.codec (columnwise rows)
  indexed : tree.stream.Indexed params (columnwise rows)

theorem DenseTree.Refines.toShows {tree : DenseTree Data Index blocks}
    (h : tree.Refines params rows) (hblocks : 0 < blocks) : tree.Shows params rows where
  size := h.size_eq hblocks
  value := by
    intro block idx
    by_cases hidx : idx < rows.length
    · rw [h.value_eq block hidx]
      simp [column, hidx]
    · rw [DenseTree.value, if_neg (by rw [h.size_eq hblocks]; exact fun hlt => hidx hlt.1)]
      simp [column, Nat.not_lt.mp hidx]
  dataSize := by
    rw [h.shows.holds.dataSize, Codec.length_units]
  indexed := h.shows.indexed

/-- In every run of successful updates from empty trees each tree is the list of rows that the list
operations give, and its indexes are those of the codes. -/
theorem run_shows_rows [DecidableEq Value] {ι : Type} [DecidableEq ι]
    (params : Params Data Value Index) (run : List (Op ι Value blocks)) :
    (∀ trees, run.foldlM (step (QuickTree.ops params blocks)) (fun _ => .empty) = some trees →
      ∀ t, (trees t).Shows params (run.foldl edit (fun _ => []) t)) ∧
    (0 < blocks →
      ∀ trees, run.foldlM (step (DenseTree.ops params blocks)) (fun _ => .empty) = some trees →
        ∀ t, (trees t).Shows params (run.foldl edit (fun _ => []) t)) := by
  refine ⟨fun trees hrun t => ?_, fun hblocks trees hrun t => ?_⟩
  · exact (refines_run QuickTree.lawful (fun _ => QuickTree.empty_refines) hrun t).toShows
  · exact (refines_run (DenseTree.lawful hblocks) (fun _ => DenseTree.empty_refines) hrun
      t).toShows hblocks

instance neZero_values : NeZero (2 ^ 63) := ⟨by decide⟩

/-- Rows with codes of one byte and of nine, an update that makes a code longer, a split, a merge
and a removal. -/
def windowRun : List (Op Bool (Fin (2 ^ 63)) 2) :=
  [.insertEntries true 0 (List.replicate 20 ![5, 2 ^ 62]), .updateValue true 0 3 (· + 300),
    .splitTo true false 2, .mergeWith true false, .remove false 0 19]

theorem run_shows_rows_windowRun :
    (∃ trees, windowRun.foldlM (step (QuickTree.ops I7.params 2)) (fun _ => .empty) = some trees ∧
      (trees false).Shows I7.params (windowRun.foldl edit (fun _ => []) false)) ∧
    (∃ trees, windowRun.foldlM (step (DenseTree.ops I7.params 2)) (fun _ => .empty) = some trees ∧
      (trees false).Shows I7.params (windowRun.foldl edit (fun _ => []) false)) := by
  obtain ⟨quick, hquick⟩ := Option.isSome_iff_exists.mp
    (show (windowRun.foldlM (step (QuickTree.ops I7.params 2)) fun _ => .empty).isSome = true by
      decide +kernel)
  obtain ⟨dense, hdense⟩ := Option.isSome_iff_exists.mp
    (show (windowRun.foldlM (step (DenseTree.ops I7.params 2)) fun _ => .empty).isSome = true by
      decide +kernel)
  obtain ⟨hshows, hshows'⟩ := run_shows_rows I7.params windowRun
  exact ⟨⟨quick, hquick, hshows quick hquick false⟩,
    ⟨dense, hdense, hshows' Nat.zero_lt_two dense hdense false⟩⟩

end Memoria.VleTree

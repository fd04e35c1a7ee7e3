import Memoria.LeafUpdate

/-!
# Updates of a leaf are all or nothing

While an operation runs, its manager has one block, the leaf, with the content the leaf had before
the change. So a restored leaf is as it was. The one operation that lets a change stay unfinished is
`tryInsertBuffer` of `bt_fl`, with an error that is not one of space.
-/

namespace Memoria.Leaf

open Lib

variable {BlockId Mem Entry Io : Type}
variable {streams : List (List (Substream Mem Entry Io))} {ctr : Ctr BlockId}
variable {fns : List (Action MemoriaError Mem)} {s s' t : State BlockId Mem} {e : MemoriaError}

theorem AllOrNothing.of_applied {before : Mem} {u : State BlockId Mem}
    (happlied : Applied fns before (u.store u.leaf)) : AllOrNothing fns before (.ok true, u) where
  applied _ := happlied
  untouched h := by cases h
  handed e hfails := absurd happlied hfails.not_applied

theorem AllOrNothing.of_restored {before : Mem} {u : State BlockId Mem}
    (hfails : FailsWith e fns before) (hpacked : e.isPackedError = true)
    (hmem : u.store u.leaf = before) : AllOrNothing fns before (.ok false, u) where
  applied h := by cases h
  untouched _ := ⟨hmem, e, hpacked, hfails⟩
  handed e' hfails' hother := by
    rw [hfails'.unique hfails, hpacked] at hother
    cases hother

/-- No error but the one handed on can be that of the change. -/
theorem AllOrNothing.of_error {before : Mem} {u : State BlockId Mem}
    (honly : ∀ e', FailsWith e' fns before → e' = e) : AllOrNothing fns before (.error e, u) where
  applied h := by cases h
  untouched h := by cases h
  handed e' hfails _ := by rw [honly e' hfails]

theorem nextTry_eq_some_iff {α : Type}
    {call : α → State BlockId Mem → Except MemoriaError Bool × State BlockId Mem} {args : α} :
    nextTry call s args = some t ↔ ∃ accepted, call args s = (.ok accepted, t) := by
  rw [nextTry]
  split
  next accepted u hcall =>
    rw [hcall]
    constructor
    · rintro ⟨⟩
      exact ⟨accepted, rfl⟩
    · rintro ⟨_, ⟨⟩⟩
      rfl
  next e u hcall =>
    rw [hcall]
    constructor
    · rintro ⟨⟩
    · rintro ⟨_, ⟨⟩⟩

def Saved (s : State BlockId Mem) : Prop := s.mgr.blocks = [(s.leaf, s.store s.leaf)]

theorem add_saved (hempty : s.mgr.blocks = []) (hadd : add ctr s = (.ok (), t)) :
    Saved t ∧ t.store = s.store ∧ t.leaf = s.leaf := by
  rw [add, dif_pos (by rw [hempty]; exact Nat.zero_lt_succ 3)] at hadd
  split at hadd
  · cases hadd
    exact ⟨congrArg (· ++ [(s.leaf, s.store s.leaf)]) hempty, rfl, rfl⟩
  · cases hadd

theorem opened_saved (happlied : Applied [add ctr] s.opened t) : Saved t := by
  obtain _ | ⟨hadd, _ | _⟩ := happlied
  exact (add_saved rfl hadd).1

theorem ctrUpdateBlockGuard_eq (hguard : ctrUpdateBlockGuard ctr s = (.ok (), t)) : t = s := by
  rw [ctrUpdateBlockGuard] at hguard
  split_ifs at hguard
  · exact (Prod.mk.inj hguard).2.symm
  · cases hguard

variable [DecidableEq BlockId]

/-- The copy that takes the place of the leaf has the content of the leaf. -/
theorem ctrCowClonePath_keeps (hclone : ctrCowClonePath ctr s = (.ok (), t)) :
    t.store t.leaf = s.store s.leaf ∧ t.mgr = s.mgr := by
  rw [ctrCowClonePath] at hclone
  split_ifs at hclone
  · cases hclone
    exact ⟨rfl, rfl⟩
  · split at hclone
    · cases hclone
    · split at hclone
      · cases hclone
      · dsimp only at hclone
        split at hclone
        · cases hclone
        · cases hclone
          exact ⟨Function.update_self _ _ _, rfl⟩

theorem protectLeaf_saved (hempty : s.mgr.blocks = []) (happlied : Applied (protectLeaf ctr) s t) :
    Saved t ∧ t.store t.leaf = s.store s.leaf := by
  obtain _ | ⟨hclone, _ | ⟨hguard, _ | ⟨hadd, _ | _⟩⟩⟩ := happlied
  obtain ⟨hmem, hmgr⟩ := ctrCowClonePath_keeps hclone
  cases ctrUpdateBlockGuard_eq hguard
  obtain ⟨hsaved, hstore, hleaf⟩ := add_saved (hmgr ▸ hempty) hadd
  refine ⟨hsaved, ?_⟩
  rw [hstore, hleaf, hmem]

theorem prepareMerge_saved (hempty : s.mgr.blocks = []) (happlied : Applied (prepareMerge ctr) s t) :
    Saved t ∧ t.store t.leaf = s.store s.leaf := by
  obtain _ | ⟨hpaths, _ | ⟨hparent, _ | ⟨hidx, hprotect⟩⟩⟩ := happlied
  cases (Prod.mk.inj hpaths).2
  cases (Prod.mk.inj hparent).2
  cases (Prod.mk.inj hidx).2
  exact protectLeaf_saved hempty hprotect

theorem dispatch_ok (hdispatch : dispatch fns s = (.ok (), s')) :
    Applied fns (s.store s.leaf) (s'.store s'.leaf) ∧ s'.leaf = s.leaf ∧ s'.mgr = s.mgr := by
  obtain ⟨hstatus, hstate⟩ := Prod.mk.inj hdispatch
  cases hstate
  refine ⟨?_, rfl, rfl⟩
  change Applied fns _ (Function.update s.store s.leaf (runActions fns (s.store s.leaf)).2 s.leaf)
  rw [Function.update_self, ← runActions_ok_iff, ← hstatus]

theorem dispatch_error (hdispatch : dispatch fns s = (.error e, s')) :
    FailsWith e fns (s.store s.leaf) ∧ s'.leaf = s.leaf ∧ s'.mgr = s.mgr := by
  obtain ⟨hstatus, hstate⟩ := Prod.mk.inj hdispatch
  cases hstate
  exact ⟨runActions_error_iff.mp hstatus, rfl, rfl⟩

theorem restoreNodeState_leaf (hsaved : Saved s) (hleaf : s'.leaf = s.leaf)
    (hmgr : s'.mgr = s.mgr) : (restoreNodeState s').store s'.leaf = s.store s.leaf := by
  change s'.mgr.blocks.foldl _ s'.store s'.leaf = _
  rw [hmgr, hsaved, hleaf]
  exact Function.update_self _ _ _

theorem restoreNodeState_saved (hsaved : Saved s) (hleaf : s'.leaf = s.leaf)
    (hmgr : s'.mgr = s.mgr) : Saved (restoreNodeState s') := by
  have hmem := restoreNodeState_leaf hsaved hleaf hmgr
  change s'.mgr.blocks = [(s'.leaf, (restoreNodeState s').store s'.leaf)]
  rw [hmem, hmgr, hleaf]
  exact hsaved

theorem checkpoint_saved (hsaved : Saved s) (hleaf : s'.leaf = s.leaf) (hmgr : s'.mgr = s.mgr) :
    Saved (checkpoint s') := by
  change checkpointBlocks s'.leaf (s'.store s'.leaf) s'.mgr.blocks = [(s'.leaf, s'.store s'.leaf)]
  rw [hmgr, hsaved, checkpointBlocks, if_pos hleaf.symm, hleaf]

theorem tryStreamEntry_allOrNothing :
    AllOrNothingWithin (protectLeaf ctr) (fun _ => fns) [] s.opened (tryStreamEntry ctr fns s) := by
  rw [tryStreamEntry]
  split
  next e t hprotect =>
    have hfails : FailsWith e (protectLeaf ctr) s.opened := by
      rw [← runActions_error_iff, hprotect]
    exact ⟨fun e' hfails' => by rw [hfails'.unique hfails],
      fun u happlied => absurd happlied hfails.not_applied⟩
  next t hprotect =>
    have happlied := runActions_ok_iff.mp hprotect
    obtain ⟨hsaved, hmem⟩ := protectLeaf_saved rfl happlied
    refine ⟨fun e hfails => absurd happlied hfails.not_applied, fun u hu => ⟨?_, nofun⟩⟩
    rw [← hmem]
    split
    next t' hdispatch => exact .of_applied (dispatch_ok hdispatch).1
    next status t' hdispatch =>
      obtain ⟨hfails, hleaf, hmgr⟩ := dispatch_error hdispatch
      split_ifs with hpacked
      · exact .of_restored hfails hpacked (restoreNodeState_leaf hsaved hleaf hmgr)
      · exact .of_error fun e' hfails' => hfails'.unique hfails

theorem ctrTryMergeLeafNodes_allOrNothing (src : BlockId) :
    AllOrNothingWithin (prepareMerge ctr) (fun t => mergeWithFns streams (t.store src))
      (finishMerge ctr) s.opened (ctrTryMergeLeafNodes streams ctr src s) := by
  rw [ctrTryMergeLeafNodes]
  split
  next e t hprepare =>
    have hfails : FailsWith e (prepareMerge ctr) s.opened := by
      rw [← runActions_error_iff, hprepare]
    exact ⟨fun e' hfails' => by rw [hfails'.unique hfails],
      fun u happlied => absurd happlied hfails.not_applied⟩
  next t hprepare =>
    have happlied := runActions_ok_iff.mp hprepare
    obtain ⟨hsaved, hmem⟩ := prepareMerge_saved rfl happlied
    refine ⟨fun e hfails => absurd happlied hfails.not_applied, fun u hu => ?_⟩
    have hunique : u = t := by
      have hrun := runActions_ok_iff.mpr hu
      rw [hprepare] at hrun
      exact (Prod.mk.inj hrun).2.symm
    rw [hunique, ← hmem]
    split
    next res t' hdispatch =>
      obtain ⟨hfails, hleaf, hmgr⟩ := dispatch_error hdispatch
      refine ⟨?_, fun mem hall => absurd hall hfails.not_applied⟩
      split_ifs with hpacked
      · exact .of_restored hfails hpacked (restoreNodeState_leaf hsaved hleaf hmgr)
      · exact .of_error fun e' hfails' => hfails'.unique hfails
    next t' hdispatch =>
      obtain ⟨hall, -, -⟩ := dispatch_ok hdispatch
      have hreport (u : State BlockId Mem) := runActions_reporting (σ := State BlockId Mem)
        [ctr.removeNonLeafNodeEntry, ctr.updatePath, ctr.cowRefChildrenAfterMerge, ctr.unrefBlock,
          ctr.checkPath] t' u
      split
      next e t'' hfinish =>
        refine ⟨.of_error fun e' hfails => absurd hall hfails.not_applied, fun mem _ u e' hfails => ?_⟩
        rw [← runActions_error_iff, finishMerge, hreport u] at hfails
        rw [finishMerge] at hfinish
        rw [hfinish] at hfails
        cases hfails
        rfl
      next t'' hfinish =>
        have hsame := hreport t'
        rw [← finishMerge, hfinish] at hsame
        cases (Prod.mk.inj hsame).2
        refine ⟨.of_applied hall, fun mem _ u e' hfails => ?_⟩
        rw [← runActions_error_iff, finishMerge, hreport u] at hfails
        rw [finishMerge] at hfinish
        rw [hfinish] at hfails
        cases hfails

/-- `tryInsertBuffer` of `bt_ss` is all or nothing in every state that has a copy of the leaf. -/
theorem Btss.tryInsertBuffer_allOrNothing (hsaved : Saved s) (io : IOVector Io)
    (at_ start size : ℤ) :
    AllOrNothing (insertBufferFns streams io at_ start size) (s.store s.leaf)
      (Btss.tryInsertBuffer streams io at_ start size s) := by
  rw [Btss.tryInsertBuffer]
  split
  next status t hdispatch =>
    obtain ⟨hfails, hleaf, hmgr⟩ := dispatch_error hdispatch
    split_ifs with hpacked
    · exact .of_restored hfails hpacked (restoreNodeState_leaf hsaved hleaf hmgr)
    · exact .of_error fun e' hfails' => hfails'.unique hfails
  next t hdispatch => exact .of_applied (dispatch_ok hdispatch).1

theorem Btss.tryInsertBuffer_saved (hsaved : Saved s) {io : IOVector Io} {at_ start size : ℤ}
    {accepted : Bool} (htry : Btss.tryInsertBuffer streams io at_ start size s = (.ok accepted, t)) :
    Saved t := by
  rw [Btss.tryInsertBuffer] at htry
  split at htry
  next status u hdispatch =>
    obtain ⟨-, hleaf, hmgr⟩ := dispatch_error hdispatch
    split_ifs at htry
    · cases htry
      exact restoreNodeState_saved hsaved hleaf hmgr
    · cases htry
  next u hdispatch =>
    obtain ⟨-, hleaf, hmgr⟩ := dispatch_ok hdispatch
    cases htry
    exact checkpoint_saved hsaved hleaf hmgr

/-- The missing branch: the error is lost, and the leaf keeps what was done before it. -/
theorem Btfl.tryInsertBuffer_swallows {io : IOVector Io} {at_ start size : List ℤ}
    (hfails : FailsWith e
      (insertBuffersFns streams io (toPosition at_) (toPosition start) (toPosition size))
      (s.store s.leaf)) (hother : e.isPackedError = false) :
    (Btfl.tryInsertBuffer streams io at_ start size s).1 = .ok true := by
  rw [Btfl.tryInsertBuffer]
  split
  next status t hdispatch =>
    rw [(dispatch_error hdispatch).1.unique hfails, hother]
    rfl
  next t hdispatch => rfl

/-- `tryInsertBuffer` of `bt_fl` is all or nothing just where a buffer is refused for lack of space
only. -/
theorem Btfl.tryInsertBuffer_allOrNothing_iff (hsaved : Saved s) (io : IOVector Io)
    (at_ start size : List ℤ) :
    AllOrNothing (insertBuffersFns streams io (toPosition at_) (toPosition start) (toPosition size))
        (s.store s.leaf) (Btfl.tryInsertBuffer streams io at_ start size s) ↔
      ∀ e, FailsWith e
          (insertBuffersFns streams io (toPosition at_) (toPosition start) (toPosition size))
          (s.store s.leaf) →
        e.isPackedError = true := by
  constructor
  · intro hall e hfails
    by_contra hother
    rw [Bool.not_eq_true] at hother
    have hhanded := hall.handed e hfails hother
    rw [Btfl.tryInsertBuffer_swallows hfails hother] at hhanded
    cases hhanded
  · intro hspace
    rw [Btfl.tryInsertBuffer]
    split
    next status t hdispatch =>
      obtain ⟨hfails, hleaf, hmgr⟩ := dispatch_error hdispatch
      rw [if_pos (hspace status hfails)]
      exact .of_restored hfails (hspace status hfails) (restoreNodeState_leaf hsaved hleaf hmgr)
    next t hdispatch => exact .of_applied (dispatch_ok hdispatch).1

theorem Btfl.tryInsertBuffer_saved (hsaved : Saved s) {io : IOVector Io} {at_ start size : List ℤ}
    {accepted : Bool} (htry : Btfl.tryInsertBuffer streams io at_ start size s = (.ok accepted, t)) :
    Saved t := by
  rw [Btfl.tryInsertBuffer] at htry
  split at htry
  next status u hdispatch =>
    obtain ⟨-, hleaf, hmgr⟩ := dispatch_error hdispatch
    split_ifs at htry
    · cases htry
      exact restoreNodeState_saved hsaved hleaf hmgr
    · cases htry
      exact checkpoint_saved hsaved hleaf hmgr
  next u hdispatch =>
    obtain ⟨-, hleaf, hmgr⟩ := dispatch_ok hdispatch
    cases htry
    exact checkpoint_saved hsaved hleaf hmgr

theorem Btfl.nextTry_saved {u u' : State BlockId Mem} (hsaved : Saved u)
    {args : IOVector Io × List ℤ × List ℤ × List ℤ}
    (hnext : nextTry (fun (io, at_, start, size) =>
      Btfl.tryInsertBuffer streams io at_ start size) u args = some u') : Saved u' := by
  obtain ⟨accepted, htry⟩ := nextTry_eq_some_iff.mp hnext
  exact Btfl.tryInsertBuffer_saved hsaved htry

/-- Every operation on a leaf is all or nothing just where no buffer of `bt_fl` is refused for
another reason than space. -/
theorem Call.allOrNothing_iff (streams : List (List (Substream Mem Entry Io))) (ctr : Ctr BlockId)
    (call : Call BlockId Entry Io) (s : State BlockId Mem) :
    call.AllOrNothing streams ctr s ↔ call.RefusesForSpace streams ctr s := by
  cases call with
  | insertStreamEntry stream idx entry => exact iff_true_intro tryStreamEntry_allOrNothing
  | updateStreamEntry start stop idx entry => exact iff_true_intro tryStreamEntry_allOrNothing
  | removeStreamEntry stream idx => exact iff_true_intro tryStreamEntry_allOrNothing
  | mergeLeafNodes src => exact iff_true_intro (ctrTryMergeLeafNodes_allOrNothing src)
  | fillSs tries =>
      refine iff_true_intro fun t hopened => EveryStep.of_invariant (I := Saved)
        (P := fun _ _ => True) ?_ ?_ (opened_saved hopened) (EveryStep.trivial_of ?_ _ _)
      · rintro u ⟨io, at_, start, size⟩ u' hsaved - hnext
        obtain ⟨accepted, htry⟩ := nextTry_eq_some_iff.mp hnext
        exact Btss.tryInsertBuffer_saved hsaved htry
      · rintro u ⟨io, at_, start, size⟩ hsaved -
        exact Btss.tryInsertBuffer_allOrNothing hsaved io at_ start size
      · exact fun _ _ => trivial
  | fillFl tries =>
      refine forall_congr' fun t => forall_congr' fun hopened => ⟨fun hall => ?_, fun hspace => ?_⟩
      · exact hall.of_invariant (I := Saved) (fun _ _ _ hsaved _ => Btfl.nextTry_saved hsaved)
          (fun u args hsaved => (Btfl.tryInsertBuffer_allOrNothing_iff hsaved _ _ _ _).mp)
          (opened_saved hopened)
      · exact hspace.of_invariant (I := Saved) (fun _ _ _ hsaved _ => Btfl.nextTry_saved hsaved)
          (fun u args hsaved => (Btfl.tryInsertBuffer_allOrNothing_iff hsaved _ _ _ _).mpr)
          (opened_saved hopened)

def readyCtr : Ctr Unit where
  isMutableNode _ := true
  checkUpdatesAllowed := .ok ()
  allocateMemory := .ok ()
  cloneParents := .ok ()
  cloneBlock := .ok ()
  setChildId := .ok ()
  checkSamePaths := .ok ()
  getNodeParent := .ok ()
  getChildIdx := .ok ()
  removeNonLeafNodeEntry := .ok ()
  updatePath := .ok ()
  cowRefChildrenAfterMerge := .ok ()
  unrefBlock := .ok ()
  checkPath := .ok ()

/-- A key at the front, and a value at a position that the value stream does not have: the key goes
in, the value does not, and the outcome is `true`. -/
theorem fill_loses_error :
    ¬ (Call.fillFl [(⟨fun _ => (), ()⟩, [0, 5], [0, 0], [1, 1])] : Call Unit Unit Unit).AllOrNothing
      [[PackedSizedStruct.substream 0], [PackedSizedStruct.substream 1],
        [PackedSizedStruct.substream 2]] readyCtr ⟨fun _ => [some 3, some 0, some 3], (), .empty⟩ := by
  intro hall
  have hfirst := (hall _ (.cons rfl (.nil _))).1.handed _
    (.later rfl (.later rfl (.later rfl (.later rfl (.here rfl))))) rfl
  cases hfirst

end Memoria.Leaf

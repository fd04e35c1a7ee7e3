import Memoria.Lib.Run
import Memoria.Proof.TreeNeighbours
import Memoria.Proof.TreeReturns

/-!
# Runs of changes, splits and moves

For a caller that works on the leaves the branches do not exist: the tree is the list of its leaves,
with one of them at hand.
-/

namespace Memoria.TreeUpdate

open Lib Prog

variable {E D : Type} {s s' : TreeState E D} {layout : Layout E D} {leaves : Leaves D}

section Rows

variable {data data' : ℕ → Option (List D)} {row : List ℕ} {node : ℕ}

theorem Leaves.On.congr (h : leaves.On data row node) (hdata : ∀ id ∈ row, data' id = data id) :
    leaves.On data' row node := by
  obtain ⟨before, behind, rfl, hbefore, hhere, hbehind⟩ := h
  refine ⟨before, behind, rfl, ?_, ?_, ?_⟩
  · rw [← hbefore]
    refine List.map_congr_left fun id hid => hdata id ?_
    exact List.mem_append_left _ (List.mem_reverse.mpr hid)
  · rw [← hhere]
    exact hdata node (List.mem_append_right _ List.mem_cons_self)
  · rw [← hbehind]
    refine List.map_congr_left fun id hid => hdata id ?_
    exact List.mem_append_right _ (List.mem_cons_of_mem node hid)

/-- Other data in the leaf at hand. -/
theorem Leaves.On.change (h : leaves.On data row node) (hnodup : row.Nodup) {new : List D}
    (hnew : data' node = some new) (hdata : ∀ id ∈ row, id ≠ node → data' id = data id) :
    Leaves.On data' row node { leaves with here := new } := by
  obtain ⟨before, behind, rfl, hbefore, -, hbehind⟩ := h
  have hne {id : ℕ} (hid : id ∈ before.reverse ++ behind) : id ≠ node :=
    ne_of_nodup_middle hnodup hid
  refine ⟨before, behind, rfl, ?_, hnew, ?_⟩
  · refine (List.map_congr_left fun id hid => ?_).trans hbefore
    have hmem := List.mem_reverse.mpr hid
    exact hdata id (List.mem_append_left _ hmem) (hne (List.mem_append_left _ hmem))
  · refine (List.map_congr_left fun id hid => ?_).trans hbehind
    refine hdata id (List.mem_append_right _ (List.mem_cons_of_mem node hid)) ?_
    exact hne (List.mem_append_right _ hid)

/-- The neighbour comes to hand. -/
theorem Leaves.On.moved (h : leaves.On data row node) (hnodup : row.Nodup) {forward : Bool}
    {next : ℕ} (hnext : Beyond forward row node (some next)) :
    (leaves.move forward).On data row next := by
  obtain ⟨before, behind, rfl, hbefore, hhere, hbehind⟩ := h
  obtain ⟨lbefore, lhere, lbehind⟩ := leaves
  have heq := hnext.eq_head? hnodup
  cases forward with
  | true =>
      obtain ⟨rest, rfl⟩ := List.head?_eq_some_iff.mp heq.symm
      cases lbehind with
      | nil => exact absurd hbehind (List.cons_ne_nil _ _)
      | cons d lbehind =>
          obtain ⟨hd, hrest⟩ := List.cons.inj hbehind
          refine ⟨node :: before, rest, ?_, congrArg₂ List.cons hhere hbefore, hd, hrest⟩
          rw [List.reverse_cons, List.append_assoc]
          rfl
  | false =>
      obtain ⟨rest, rfl⟩ := List.head?_eq_some_iff.mp heq.symm
      cases lbefore with
      | nil => exact absurd hbefore (List.cons_ne_nil _ _)
      | cons d lbefore =>
          obtain ⟨hd, hrest⟩ := List.cons.inj hbefore
          refine ⟨rest, node :: behind, ?_, hrest, hd, congrArg₂ List.cons hhere hbehind⟩
          rw [List.reverse_cons, List.append_assoc]
          rfl

theorem Leaves.On.stays (h : leaves.On data row node) (hnodup : row.Nodup) {forward : Bool}
    (hend : Beyond forward row node none) : (leaves.move forward).On data row node := by
  obtain ⟨before, behind, rfl, hbefore, hhere, hbehind⟩ := h
  obtain ⟨lbefore, lhere, lbehind⟩ := leaves
  have heq := hend.eq_head? hnodup
  cases forward with
  | true =>
      obtain rfl := List.head?_eq_none_iff.mp heq.symm
      obtain rfl := List.map_eq_nil_iff.mp hbehind.symm
      exact ⟨before, [], rfl, hbefore, hhere, rfl⟩
  | false =>
      obtain rfl := List.head?_eq_none_iff.mp heq.symm
      obtain rfl := List.map_eq_nil_iff.mp hbefore.symm
      exact ⟨[], behind, rfl, rfl, hhere, hbehind⟩

/-- A new leaf behind the one at hand comes to hand. -/
theorem Leaves.On.split {before behind : List ℕ} {right : ℕ} {new : List D}
    (h : leaves.On data (before ++ node :: behind) node)
    (hnodup : (before ++ node :: right :: behind).Nodup) {old : List D}
    (hold : data' node = some old) (hnew : data' right = some new)
    (hdata : ∀ id ∈ before ++ behind, data' id = data id) :
    Leaves.On data' (before ++ node :: right :: behind) right
      ⟨old :: leaves.before, new, leaves.behind⟩ := by
  obtain ⟨xs, ys, hrow, hbefore, -, hbehind⟩ := h
  have hmem : node ∉ before ∧ node ∉ right :: behind := by
    obtain ⟨hmem, -⟩ := List.nodup_cons.mp (List.nodup_middle.mp hnodup)
    rwa [List.mem_append, not_or] at hmem
  have hmem' : node ∉ before ∧ node ∉ behind :=
    ⟨hmem.1, fun h => hmem.2 (List.mem_cons_of_mem right h)⟩
  obtain ⟨rfl, -, rfl⟩ := (List.append_cons_inj_of_notMem hmem'.1 hmem'.2).mp hrow
  refine ⟨node :: xs, behind, ?_, congrArg₂ List.cons hold ?_, hnew, ?_⟩
  · rw [List.reverse_cons, List.append_assoc]
    rfl
  · refine (List.map_congr_left fun id hid => ?_).trans hbefore
    exact hdata id (List.mem_append_left _ (List.mem_reverse.mpr hid))
  · refine (List.map_congr_left fun id hid => ?_).trans hbehind
    exact hdata id (List.mem_append_right _ hid)

end Rows

section Calls

variable {fuel : ℕ}

theorem leafData_eq {id : ℕ} {block : Block E D} {data : List D} (hblock : s.store id = some block)
    (hbody : block.body = .leaf data) : s.leafData id = some data := by
  obtain ⟨level, isRoot, body⟩ := block
  obtain rfl : body = .leaf data := hbody
  rw [TreeState.leafData, hblock]

theorem leafData_congr {id : ℕ} (hstore : s'.store id = s.store id) :
    s'.leafData id = s.leafData id := by
  rw [TreeState.leafData, TreeState.leafData, hstore]

theorem exists_leaf {id : ℕ} {data : List D} (h : s.leafData id = some data) :
    ∃ block, s.store id = some block ∧ block.body = .leaf data := by
  rw [TreeState.leafData] at h
  cases hblock : s.store id with
  | none => rw [hblock] at h; cases h
  | some block =>
      obtain ⟨level, isRoot, body⟩ := block
      rw [hblock] at h
      cases body with
      | leaf data' =>
          obtain rfl := Option.some.inj h
          exact ⟨_, rfl, rfl⟩
      | branch entries => cases h

theorem Leaves.On.here (h : leaves.On s.leafData (s.row 0) (s.path.nodes 0)) :
    ∃ block, s.store (s.path.nodes 0) = some block ∧ block.body = .leaf leaves.here := by
  obtain ⟨-, -, -, -, hhere, -⟩ := h
  exact exists_leaf hhere

def KeptBy (layout : Layout E D) (x : Op E D Unit) (s : TreeState E D) (leaves : Leaves D) : Prop :=
  Ends x s (fun _ s' => Session.Shows layout ⟨s', leaves⟩) fun _ _ => True

variable (hshows : Session.Shows layout ⟨s, leaves⟩)

include hshows

/-- A change of the leaf at hand. -/
theorem changeLeaf_kept (data : List D) :
    KeptBy layout (changeLeaf (functions layout fuel) data) s { leaves with here := data } := by
  obtain ⟨hsound, hspine, hexact, hleaves⟩ := hshows
  change Sound s at hsound
  change Spine s 0 at hspine
  obtain ⟨block, hblock, hbody⟩ := Leaves.On.here hleaves
  obtain ⟨b, hb, hlevel, -⟩ := hspine.at_level
  obtain rfl := Option.some.inj (hblock.symm.trans hb)
  refine ends_bind (nodeAt_outcome hspine.lt_size) (ends_bind (getBlock_outcome hblock) ?_)
  refine ends_bind (putBlock_outcome s _ _) ?_
  set block' : Block E D := { block with body := .leaf data } with hblock'
  set s₁ := s.put (s.path.nodes 0) block' with hs₁
  have hentries : block.entries = [] := by
    rw [Block.entries, hbody]
  have hchildren : block'.children = block.children := by
    rw [Block.children, Block.children, hentries]
    rfl
  have hinv : Inv layout s₁ 0 1 (· = s₁.path.nodes 0) := by
    refine ⟨hsound.put hblock rfl id hchildren, hspine.put hblock rfl rfl, ?_⟩
    exact hexact.put (fun e he => absurd he List.not_mem_nil) fun _ _ _ _ _ _ => not_false
  have hrow₁ : s₁.row 0 = s.row 0 := by
    refine row_of_blocks hsound hspine rfl rfl hspine.lt_size ?_
    intro id b hb hlt
    refine (TreeState.put_of_ne ?_ s block').trans hb
    rintro rfl
    obtain rfl := Option.some.inj (hb.symm.trans hblock)
    exact absurd hlevel hlt.ne'
  have hspec := (functions_spec layout fuel).2.2.2.2
  refine (hspec s₁ 0 hinv).imp ?_ (fun _ _ _ => trivial)
  rintro _ s₂ ⟨hinv₂, hkeeps, hrow⟩
  have hnode : s₂.path.nodes 0 = s.path.nodes 0 := hkeeps.nodes 0 Nat.one_pos
  have hrow₂ : s₂.row 0 = s.row 0 := hrow.trans hrow₁
  refine ⟨hinv₂.sound, hinv₂.spine, hinv₂.entries, ?_⟩
  change Leaves.On s₂.leafData (s₂.row 0) (s₂.path.nodes 0) _
  rw [hrow₂, hnode]
  refine hleaves.change (row_nodup hsound hspine hspine.lt_size) ?_ ?_
  · have hnew : s₂.store (s.path.nodes 0) = some block' :=
      (hkeeps.blocks _ block' (Nat.lt_succ_of_le hlevel.le)).mpr (s.put_self _ _)
    exact leafData_eq hnew rfl
  · intro id hid hne
    obtain ⟨b, hb, hbl⟩ := row_level hsound hspine hspine.lt_size id hid
    have hb₁ : s₁.store id = some b := (TreeState.put_of_ne hne s block').trans hb
    have hb₂ := (hkeeps.blocks id b (Nat.lt_succ_of_le hbl.le)).mpr hb₁
    exact leafData_congr (hb₂.trans hb.symm)

/-- A split of the leaf at hand, after which its right half is at hand. -/
theorem split_kept (splitFn : SplitFn E D) :
    KeptBy layout ((functions layout fuel).splitNodeRaw 0 splitFn) s (leaves.split splitFn) := by
  obtain ⟨hsound, hspine, hexact, hleaves⟩ := hshows
  change Sound s at hsound
  change Spine s 0 at hspine
  obtain ⟨block, hblock, hbody⟩ := Leaves.On.here hleaves
  have hinv : Inv layout s 0 1 (· = s.path.nodes 0) :=
    ⟨hsound, hspine, hexact.mono le_rfl fun _ => False.elim⟩
  have hspec := (functions_spec layout fuel).2.2.1
  refine (hspec s 0 block splitFn hinv hblock).imp ?_ (fun _ _ _ => trivial)
  rintro _ s' ⟨left, right, hsplit, hinv', -, hhalves⟩
  rw [hbody] at hsplit
  obtain ⟨xs, ys, -, rfl, rfl⟩ | ⟨xs, ys, hbranch, -⟩ := splitFn.in_order _ _ _ hsplit
  · refine ⟨hinv'.sound, hinv'.spine, hinv'.entries, ?_⟩
    change (leaves.split splitFn).On s'.leafData (s'.row 0) (s'.path.nodes 0)
    rw [Leaves.split, hsplit]
    obtain ⟨before, behind, hrow, hrow'⟩ := hhalves.row
    have hnodup := row_nodup hinv'.sound hinv'.spine hinv'.spine.lt_size
    change leaves.On s.leafData (s.row 0) (s.path.nodes 0) at hleaves
    rw [hrow] at hleaves
    rw [hrow'] at hnodup ⊢
    refine hleaves.split hnodup (leafData_eq hhalves.left_eq rfl)
      (leafData_eq hhalves.right_eq rfl) ?_
    intro id hid
    obtain ⟨hleft, hright, hmem⟩ := not_half hnodup hid
    rw [← hrow'] at hmem
    obtain ⟨b, hb, hbl⟩ := row_level hinv'.sound hinv'.spine hinv'.spine.lt_size id hmem
    obtain hl | hr | hsame := hhalves.others id b hbl hb
    · exact absurd hl hleft
    · exact absurd hr hright
    · exact leafData_congr (hb.trans hsame.symm)
  · cases hbranch

/-- A move to a neighbour, if there is one. -/
theorem move_kept (forward : Bool) :
    KeptBy layout (moveNode forward 0 : Op E D Unit) s (leaves.move forward) := by
  obtain ⟨hsound, hspine, hexact, hleaves⟩ := hshows
  change Sound s at hsound
  change Spine s 0 at hspine
  obtain ⟨result, hout, hmoved⟩ := adjacentNode_spec forward hsound hspine
  have hnodup := row_nodup hsound hspine hspine.lt_size
  refine ends_bind (get_outcome s) ?_
  cases result with
  | error failure =>
      have hends : Ends (adjacentNode forward (s.path.size - (0 + 1)) s.path 0 : Op E D _) s
          (fun _ _ => False) fun _ _ => True := ends_of_outcome hout trivial
      exact hends.bind fun _ _ => False.elim
  | ok moved =>
      obtain ⟨found, path⟩ := moved
      refine ends_bind hout (ends_of_outcome (setPath_outcome s path) ?_)
      cases found with
      | true =>
          obtain ⟨hnext, hspine', hsize, hroot, -⟩ := hmoved
          refine ⟨hsound.withPath _, hspine', hexact, ?_⟩
          have hrow : (s.along path).row 0 = s.row 0 :=
            row_congr hsize hroot hspine.lt_size fun _ _ _ _ _ => rfl
          change (leaves.move forward).On s.leafData ((s.along path).row 0) (path.nodes 0)
          rw [hrow]
          exact hleaves.moved hnodup hnext
      | false =>
          obtain ⟨rfl, hend⟩ := hmoved
          exact ⟨hsound, hspine, hexact, hleaves.stays hnodup hend⟩

end Calls

theorem Session.Shows.of_step {fuel : ℕ} {session session' : Session E D} {call : Call E D}
    (hshows : session.Shows layout) (hstep : step layout fuel session call = some session') :
    session'.Shows layout := by
  have hkept : KeptBy layout (call.run layout fuel) session.state (call.onLeaves session.leaves) := by
    cases call with
    | change data => exact changeLeaf_kept hshows data
    | split splitFn => exact split_kept hshows splitFn
    | move forward => exact move_kept hshows forward
  rw [step] at hstep
  cases hout : (call.run layout fuel).outcome session.state with
  | none => rw [hout] at hstep; cases hstep
  | some outcome =>
      obtain ⟨result, state⟩ := outcome
      rw [hout] at hstep
      cases result with
      | error failure => cases hstep
      | ok done =>
          obtain rfl := Option.some.inj hstep
          exact hkept _ _ hout

theorem start_store {data : List D} {id : ℕ} {block : Block E D}
    (hblock : (start data).state.store id = some block) : id = 0 ∧ block = ⟨0, true, .leaf data⟩ := by
  change Function.update (fun _ => none) 0 (some ⟨0, true, .leaf data⟩) id = some block at hblock
  by_cases hid : id = 0
  · subst hid
    exact ⟨rfl, (Option.some.inj hblock).symm⟩
  · rw [Function.update_of_ne hid] at hblock
    cases hblock

theorem start_shows (layout : Layout E D) (data : List D) :
    (start data : Session E D).Shows layout := by
  refine ⟨⟨?_, ?_, ?_, ?_⟩, ⟨Nat.one_pos, ?_, ?_⟩, ?_, ⟨[], [], rfl, rfl, rfl, rfl⟩⟩
  · intro id block hblock
    obtain ⟨rfl, -⟩ := start_store hblock
    exact Nat.one_pos
  · intro id block hblock c hc
    obtain ⟨-, rfl⟩ := start_store hblock
    exact absurd hc List.not_mem_nil
  · intro id block hblock
    obtain ⟨-, rfl⟩ := start_store hblock
    exact List.nodup_nil
  · intro id block id' block' c hblock hblock' hc
    obtain ⟨-, rfl⟩ := start_store hblock
    exact absurd hc List.not_mem_nil
  · intro k _ hk
    obtain rfl : k = 0 := Nat.lt_one_iff.mp hk
    exact ⟨⟨0, true, .leaf data⟩, rfl, rfl, iff_of_true rfl rfl⟩
  · intro k _ hk
    exact absurd (Nat.lt_one_iff.mp hk) (Nat.succ_ne_zero k)
  · intro id block hblock _ e he
    obtain ⟨-, rfl⟩ := start_store hblock
    exact absurd he List.not_mem_nil

/-- What follows from the invariant holds in every state of a run. -/
theorem Session.Shows.run {fuel : ℕ} {session : Session E D} {calls : List (Call E D)}
    (hshows : session.Shows layout) {Q : Session E D → Prop}
    (hQ : ∀ session, session.Shows layout → Q session) :
    EveryState (step layout fuel) Q session calls :=
  EveryState.of_invariant (I := Session.Shows layout) (P := fun _ _ => True)
    (fun _ _ _ hshows _ hstep => hshows.of_step hstep) hQ hshows
    (EveryStep.trivial_of (fun _ _ => trivial) _ _)

structure Session.Answers (layout : Layout E D) (fuel : ℕ) (session : Session E D) : Prop where
  change : ∀ n data, layout.Fits n → Roomy n session.state 0 →
    2 * session.state.path.size ≤ fuel + 1 → (step layout fuel session (.change data)).isSome
  split : ∀ n splitFn left right, layout.Fits n → 2 ≤ n →
    splitFn.split (.leaf session.leaves.here) = .ok (left, right) →
    (1 < session.state.path.size → Ready n session.state 0) →
    2 * session.state.path.size + 2 ≤ fuel → (step layout fuel session (.split splitFn)).isSome

theorem isSome_step {fuel : ℕ} {session : Session E D} {call : Call E D}
    (hreturns : Returns (call.run layout fuel) session.state fun _ _ => True) :
    (step layout fuel session call).isSome := by
  obtain ⟨_, s', hout, -⟩ := hreturns
  rw [step, hout]
  rfl

theorem Session.Shows.answers {session : Session E D} (hshows : session.Shows layout) (fuel : ℕ) :
    session.Answers layout fuel := by
  obtain ⟨hsound, hspine, hentries, hleaves⟩ := hshows
  obtain ⟨block, hblock, hbody⟩ := hleaves.here
  refine ⟨?_, ?_⟩
  · intro n data hfits hroomy hfuel
    refine isSome_step ?_
    refine returns_bind (nodeAt_outcome hspine.lt_size) (returns_bind (getBlock_outcome hblock) ?_)
    refine returns_bind (putBlock_outcome _ _ _) ?_
    have hspine' : Spine (session.state.put (session.state.path.nodes 0)
        { block with body := .leaf data }) 0 := hspine.put hblock rfl rfl
    refine (updatePath_returns hfits hspine' ?_ (Nat.zero_add _) hfuel).imp fun _ _ _ => trivial
    refine hroomy.of_path hspine rfl ?_
    intro k b b' hk hsize hb hb'
    rw [TreeState.put_of_ne (hspine.node_ne hk hsize), hb] at hb'
    obtain rfl := Option.some.inj hb'
    rfl
  · intro n splitFn left right hfits hn hsplit hready hfuel
    rw [← hbody] at hsplit
    exact isSome_step (splitNodeRaw_returns hfits hn
      ⟨hsound, hspine, hentries.mono le_rfl fun _ => False.elim⟩ hblock hsplit hready hfuel)

/-- Whatever a caller does at the leaves, and whatever splits of branches this takes, the path is
valid, the entries are right, and the leaves are those that the calls make of the list. Where the
branches have room, no change or split fails. -/
theorem leaves_shown_run (layout : Layout E D) (fuel : ℕ) (data : List D) (calls : List (Call E D)) :
    EveryState (step layout fuel)
      (fun session => session.Shows layout ∧ session.Answers layout fuel) (start data) calls :=
  (start_shows layout data).run fun _ hshows => ⟨hshows, hshows.answers fuel⟩

section Example

def pairs : Layout ℕ ℕ where
  maxKeys
    | .leaf data => data.sum
    | .branch entries => (entries.map Prod.fst).sum
  roomToInsert block _ _ := decide (block.entries.length < 2)
  roomToUpdate _ _ _ := true
  insert_first _ _ hempty := by
    rw [hempty]
    rfl

/-- Two splits of a leaf, of which the second one splits the root, and a way back to a leaf that is
changed. -/
def splits : List (Call ℕ ℕ) :=
  [.split (splitLeafNode 2), .split (splitLeafNode 1), .move false, .change [7]]

theorem leaves_shown_splits :
    EveryState (step pairs 12) (fun session => session.Shows pairs ∧ session.Answers pairs 12)
        (start [1, 2, 3, 4]) splits ∧
      (splits.foldlM (step pairs 12) (start [1, 2, 3, 4])).map (fun session =>
        [session.state.row 0, session.state.row 1, session.state.row 2,
          [session.state.path.nodes 0]]) = some [[0, 2, 3], [1, 5], [4], [2]] :=
  ⟨leaves_shown_run pairs 12 [1, 2, 3, 4] splits, by decide +kernel⟩

end Example

theorem returns_of_toBool {x : Op E D Unit} {row : List ℕ}
    (h : ((x.outcome s).map fun r => (r.1.toBool, r.2.row 0)) = some (true, row)) :
    ∃ s', x.outcome s = some (.ok (), s') ∧ s'.row 0 = row := by
  obtain ⟨⟨result, s'⟩, hout, heq⟩ := Option.map_eq_some_iff.mp h
  obtain ⟨hok, hrow⟩ := Prod.mk.inj heq
  cases result with
  | ok done => exact ⟨s', hout, hrow⟩
  | error failure => cases hok

theorem pairs_fits : pairs.Fits 2 :=
  ⟨fun _ _ _ _ => rfl, fun _ _ _ hlength => decide_eq_true hlength⟩

/-- The next and the previous node are the neighbours in the order of the level, with a valid path,
where every branch above has a child. -/
theorem neighbour_found {level : ℕ} (forward : Bool) (hsound : Sound s) (hspine : Spine s level)
    (hfull : ∀ id block, s.store id = some block → level < block.level → block.entries ≠ []) :
    ∃ found path, (adjacentNode forward (s.path.size - (level + 1)) s.path level :
      Op E D (Bool × TreePath)).outcome s = some (.ok (found, path), s) ∧
        if found then
          Beyond forward (s.row level) (s.path.nodes level) (some (path.nodes level)) ∧
            Spine (s.along path) level ∧ ∀ k < level, path.nodes k = s.path.nodes k
        else Beyond forward (s.row level) (s.path.nodes level) none ∧ path = s.path := by
  obtain ⟨result, hout, hmoved⟩ := adjacentNode_spec forward hsound hspine
  cases result with
  | error failure =>
      obtain ⟨-, id, block, hblock, hlt, hempty⟩ := hmoved
      exact absurd hempty (hfull id block hblock hlt)
  | ok moved =>
      obtain ⟨found, path⟩ := moved
      refine ⟨found, path, hout, ?_⟩
      cases found with
      | true =>
          obtain ⟨hnext, hspine', -, -, hlower⟩ := hmoved
          exact ⟨hnext, hspine', hlower⟩
      | false =>
          obtain ⟨hpath, hend⟩ := hmoved
          exact ⟨hend, hpath⟩

/-- The leaf in the middle of a tree of three levels has a neighbour on either side, one of them
below another branch. -/
theorem neighbour_found_splits : ∃ session : Session ℕ ℕ,
    (splits.take 3).foldlM (step pairs 12) (start [1, 2, 3, 4]) = some session ∧
      ∀ forward, ∃ path, (adjacentNode forward 2 session.state.path 0 :
        Op ℕ ℕ (Bool × TreePath)).outcome session.state = some (.ok (true, path), session.state) ∧
        Beyond forward (session.state.row 0) (session.state.path.nodes 0) (some (path.nodes 0)) ∧
        path.nodes 0 = if forward then 3 else 0 := by
  obtain ⟨session, hrun⟩ := Option.isSome_iff_exists.mp (show ((splits.take 3).foldlM
    (step pairs 12) (start [1, 2, 3, 4])).isSome = true by decide +kernel)
  have hshows : session.Shows pairs := ((start_shows pairs [1, 2, 3, 4]).run fun _ => id).last hrun
  have hcheck : ((splits.take 3).foldlM (step pairs 12) (start [1, 2, 3, 4])).map (fun session =>
      (session.state.path.size, decide (∀ id < session.state.next,
        ∀ block ∈ session.state.store id, 0 < block.level → block.entries ≠ []))) =
      some (3, true) := by decide +kernel
  rw [hrun, Option.map_some, Option.some.injEq, Prod.mk.injEq, decide_eq_true_eq] at hcheck
  obtain ⟨hsize, hfull⟩ := hcheck
  refine ⟨session, hrun, fun forward => ?_⟩
  obtain ⟨found, path, hout, hbeyond⟩ := neighbour_found forward hshows.sound hshows.spine
    fun id block hblock => hfull id (hshows.sound.fresh id block hblock) block hblock
  rw [hsize] at hout
  have hmoved : ((splits.take 3).foldlM (step pairs 12) (start [1, 2, 3, 4])).bind (fun session =>
      ((adjacentNode forward 2 session.state.path 0 : Op ℕ ℕ (Bool × TreePath)).outcome
        session.state).map fun r => r.1.toOption.map fun moved => (moved.1, moved.2.nodes 0)) =
      some (some (true, if forward then 3 else 0)) := by
    cases forward <;> decide +kernel
  have hvalue : some (some (found, path.nodes 0)) = some (some (true, if forward then 3 else 0)) := by
    rw [← hmoved, hrun, Option.bind_some]
    exact (congrArg (Option.map fun r => r.1.toOption.map fun moved => (moved.1, moved.2.nodes 0))
      hout).symm
  obtain ⟨rfl, hnode⟩ := Prod.mk.inj (Option.some.inj (Option.some.inj hvalue))
  exact ⟨path, hout, hbeyond.1, hnode⟩

end Memoria.TreeUpdate

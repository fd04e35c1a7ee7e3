import Memoria.Proof.TreeUpdate

/-!
# Splits return

A split is the only call that can fail for want of room, and only the splits of branches go on for
longer than the path is high. Where the branches of the path have room there are none, and a split
returns.
-/

namespace Memoria.TreeUpdate

open Lib Prog

variable {E D : Type} {s s' s'' : TreeState E D} {layout : Layout E D} {level n fuel : ℕ}

structure Layout.Fits (layout : Layout E D) (n : ℕ) : Prop where
  update : ∀ block idx entry, block.entries.length ≤ n →
    layout.roomToUpdate block idx entry = true
  insert : ∀ block idx entry, block.entries.length < n →
    layout.roomToInsert block idx entry = true

def Roomy (n : ℕ) (s : TreeState E D) (level : ℕ) : Prop :=
  ∀ k block, level < k → k < s.path.size → s.store (s.path.nodes k) = some block →
    block.entries.length ≤ n

structure SameShape (s s' : TreeState E D) : Prop where
  path : s'.path = s.path
  blocks : ∀ id block, s.store id = some block → ∃ block', s'.store id = some block' ∧
    block'.level = block.level ∧ block'.isRoot = block.isRoot ∧ block'.children = block.children

theorem Block.length_children (block : Block E D) : block.children.length = block.entries.length :=
  List.length_map ..

theorem Block.length_eq {block block' : Block E D} (hchildren : block'.children = block.children) :
    block'.entries.length = block.entries.length := by
  rw [← block.length_children, ← block'.length_children, hchildren]

theorem SameShape.refl (s : TreeState E D) : SameShape s s :=
  ⟨rfl, fun _ block hblock => ⟨block, hblock, rfl, rfl, rfl⟩⟩

theorem SameShape.trans (hfirst : SameShape s s') (hsecond : SameShape s' s'') :
    SameShape s s'' := by
  refine ⟨hsecond.path.trans hfirst.path, ?_⟩
  intro id block hblock
  obtain ⟨block', hblock', hlevel, hroot, hchildren⟩ := hfirst.blocks id block hblock
  obtain ⟨block'', hblock'', hlevel', hroot', hchildren'⟩ := hsecond.blocks id block' hblock'
  exact ⟨block'', hblock'', hlevel'.trans hlevel, hroot'.trans hroot, hchildren'.trans hchildren⟩

theorem SameShape.spine (hsame : SameShape s s') (hspine : Spine s level) : Spine s' level := by
  refine hspine.of_blocks hsame.path ?_
  intro k block _ _ hblock
  obtain ⟨block', hblock', hlevel, hroot, hchildren⟩ := hsame.blocks _ block hblock
  exact ⟨block', hblock', hlevel, hroot, fun _ => (hchildren ▸ List.Subset.refl _)⟩

theorem SameShape.length_eq (hsame : SameShape s s') {id : ℕ} {block block' : Block E D}
    (hblock : s.store id = some block) (hblock' : s'.store id = some block') :
    block'.entries.length = block.entries.length := by
  obtain ⟨other, hother, -, -, hchildren⟩ := hsame.blocks id block hblock
  obtain rfl := Option.some.inj (hother.symm.trans hblock')
  exact Block.length_eq hchildren

/-- The path goes through the same blocks. -/
theorem Roomy.of_path (hroomy : Roomy n s level) (hspine : Spine s level)
    (hpath : s'.path = s.path)
    (hblocks : ∀ k block block', level < k → k < s.path.size →
      s.store (s.path.nodes k) = some block → s'.store (s.path.nodes k) = some block' →
      block'.entries.length = block.entries.length) : Roomy n s' level := by
  intro k block' hlt hsize hblock'
  rw [hpath] at hsize hblock'
  obtain ⟨block, hblock, -⟩ := hspine.node k hlt.le hsize
  rw [hblocks k block block' hlt hsize hblock hblock']
  exact hroomy k block hlt hsize hblock

theorem SameShape.roomy (hsame : SameShape s s') (hspine : Spine s level)
    (hroomy : Roomy n s level) : Roomy n s' level :=
  hroomy.of_path hspine hsame.path fun _ _ _ _ _ => hsame.length_eq

theorem Roomy.mono (hroomy : Roomy n s level) {upper : ℕ} (hle : level ≤ upper) :
    Roomy n s upper :=
  fun k block hlt => hroomy k block (lt_of_le_of_lt hle hlt)

theorem Spine.node_ne (hspine : Spine s level) {k : ℕ} (hlt : level < k) (hsize : k < s.path.size) :
    s.path.nodes k ≠ s.path.nodes level := by
  intro hsame
  obtain ⟨block, hblock, hlevel, -⟩ := hspine.at_level
  obtain ⟨block', hblock', hlevel', -⟩ := hspine.node k hlt.le hsize
  rw [hsame, hblock] at hblock'
  obtain rfl := Option.some.inj hblock'
  omega

theorem updateBranchNode_returns (hfits : layout.Fits n) {node idx : ℕ} {entry : E}
    {block : Block E D} (hblock : s.store node = some block) (hlength : block.entries.length ≤ n) :
    Returns (updateBranchNode layout node idx entry) s
      fun success s' => success = true ∧ SameShape s s' := by
  refine returns_bind (getBlock_outcome hblock) ?_
  rw [if_pos (hfits.update block idx entry hlength)]
  refine returns_bind (putBlock_outcome s node _) (returns_pure ⟨rfl, rfl, ?_⟩)
  intro id other hother
  by_cases hid : id = node
  · subst hid
    obtain rfl := Option.some.inj (hother.symm.trans hblock)
    exact ⟨_, s.put_self _ _, rfl, rfl, other.children_modify idx entry⟩
  · exact ⟨other, (TreeState.put_of_ne hid s _).trans hother, rfl, rfl, rfl⟩

theorem getChildIdx_returns {block : Block E D} {id : ℕ} (hid : id ∈ block.children) :
    Returns (getChildIdx block id : Op E D ℕ) s fun idx s' =>
      block.findChildIdx id = some idx ∧ s = s' := by
  obtain ⟨idx, hidx⟩ := Block.exists_findChildIdx hid
  rw [getChildIdx, hidx]
  exact returns_pure ⟨rfl, rfl⟩

theorem checkLevels_returns (count : ℕ) (hspine : Spine s level)
    (hcount : level + count < s.path.size) :
    Returns (checkLevels s.path count (level + 1)) s fun _ s' => s = s' := by
  induction count generalizing level with
  | zero => exact returns_pure rfl
  | succ count ih =>
      have hsize : level + 1 < s.path.size := by omega
      obtain ⟨parent, hparent, hmem⟩ := hspine.link level le_rfl hsize
      refine returns_bind (pathNode_outcome s hspine.lt_size) ?_
      refine returns_bind (pathNode_outcome s hsize) (returns_bind (getBlock_outcome hparent) ?_)
      refine (getChildIdx_returns hmem).bind ?_
      rintro idx _ ⟨-, rfl⟩
      exact ih (hspine.mono (Nat.le_succ level) hsize) (by omega)

theorem checkPath_returns (hspine : Spine s level) :
    Returns (checkPath level) s fun _ s' => s = s' := by
  refine returns_bind (get_outcome s) (checkLevels_returns _ hspine ?_)
  have hlt := hspine.lt_size
  omega

/-- An update of the path takes two calls a level. -/
theorem updatePath_returns (hfits : layout.Fits n) {height : ℕ} (hspine : Spine s level)
    (hroomy : Roomy n s level) (hheight : level + height = s.path.size)
    (hfuel : 2 * height ≤ fuel + 1) :
    Returns ((functions layout fuel).updatePath level) s fun _ s' => SameShape s s' := by
  induction height generalizing s level fuel with
  | zero => exact absurd hspine.lt_size (by omega)
  | succ height ih =>
      obtain ⟨fuel, rfl⟩ : ∃ f, fuel = f + 1 := ⟨fuel - 1, by omega⟩
      obtain ⟨block, hblock, -, hroot⟩ := hspine.at_level
      refine returns_bind (nodeAt_outcome hspine.lt_size)
        (returns_bind (getBlock_outcome hblock) ?_)
      by_cases hisroot : block.isRoot = true
      · rw [if_pos hisroot]
        exact returns_pure (.refl s)
      · rw [if_neg hisroot]
        have hsize : level + 1 < s.path.size := by
          have hlt := hspine.lt_size
          have hne : level + 1 ≠ s.path.size := fun h => hisroot (hroot.mpr h)
          omega
        obtain ⟨fuel, rfl⟩ : ∃ f, fuel = f + 1 := ⟨fuel - 1, by omega⟩
        obtain ⟨parent, hparent, hmem⟩ := hspine.link level le_rfl hsize
        refine (checkPath_returns hspine).bind ?_
        rintro _ _ rfl
        refine returns_bind (nodeAt_outcome hspine.lt_size) (returns_bind (nodeAt_outcome hsize) ?_)
        refine returns_bind (getBlock_outcome hparent) ((getChildIdx_returns hmem).bind ?_)
        rintro idx _ ⟨-, rfl⟩
        have hnodes : Returns ((functions layout (fuel + 1)).updateBranchNodes (level + 1) idx
            (layout.maxKeys block.body)) s fun updated s' =>
              updated.1 = false ∧ SameShape s s' := by
          have hentry : Returns (updateEntry layout (functions layout fuel) (level + 1) idx
              (layout.maxKeys block.body)) s fun updated s' =>
                updated.1 = false ∧ SameShape s s' := by
            refine returns_bind (nodeAt_outcome hsize) ?_
            refine (updateBranchNode_returns hfits hparent
              (hroomy _ parent (Nat.lt_succ_self level) hsize hparent)).bind ?_
            rintro _ s₁ ⟨rfl, hsame⟩
            exact returns_pure ⟨rfl, hsame⟩
          refine hentry.bind ?_
          rintro updated s₁ ⟨hupdated, hsame⟩
          have hspine₁ : Spine s₁ (level + 1) :=
            hsame.spine (hspine.mono (Nat.le_succ level) hsize)
          have hroomy₁ : Roomy n s₁ (level + 1) :=
            (hsame.roomy hspine hroomy).mono (Nat.le_succ level)
          refine (ih hspine₁ hroomy₁ (by rw [hsame.path]; omega) (by omega)).bind ?_
          intro _ s₂ hsame'
          exact returns_pure ⟨hupdated, hsame.trans hsame'⟩
        refine hnodes.bind ?_
        rintro ⟨next, newIdx⟩ s₁ ⟨rfl, hsame⟩
        have hspine₁ := hsame.spine hspine
        have hsize₁ : level + 1 < s₁.path.size := by rwa [hsame.path]
        obtain ⟨parent₁, hparent₁, hmem₁⟩ := hspine₁.link level le_rfl hsize₁
        obtain ⟨found, hfound⟩ := Block.exists_findChildIdx hmem₁
        refine returns_bind (nodeAt_outcome hspine₁.lt_size)
          (returns_bind (nodeAt_outcome hsize₁) (returns_bind (getBlock_outcome hparent₁) ?_))
        rw [hfound]
        exact returns_pure hsame

/-- The branch takes the entry, and the path above is updated. -/
theorem insertToBranchNode_returns (hfits : layout.Fits n) (height : ℕ) {idx id : ℕ} {sums : E}
    {block : Block E D} (hspine : Spine s level) (hroomy : Roomy n s level)
    (hblock : s.store (s.path.nodes level) = some block) (hlength : block.entries.length < n)
    (hidx : idx ≤ block.entries.length) (hheight : level + height = s.path.size)
    (hfuel : 2 * height ≤ fuel) :
    Returns ((functions layout fuel).insertToBranchNode level idx sums id) s fun _ s' =>
      s'.path = s.path ∧ ∀ block', s'.store (s.path.nodes level) = some block' →
        block'.entries.length = block.entries.length + 1 := by
  have hlt := hspine.lt_size
  obtain ⟨fuel, rfl⟩ : ∃ f, fuel = f + 1 := ⟨fuel - 1, by omega⟩
  refine returns_bind (nodeAt_outcome hspine.lt_size) (returns_bind (getBlock_outcome hblock) ?_)
  rw [if_pos (hfits.insert block idx sums hlength)]
  refine returns_bind (putBlock_outcome s _ _) ?_
  set longer := block.withEntries (block.entries.insertIdx idx (sums, id)) with hlonger
  set s₁ := s.put (s.path.nodes level) longer with hs₁
  have hlonger₁ : s₁.store (s.path.nodes level) = some longer := s.put_self _ _
  have hlength₁ : longer.entries.length = block.entries.length + 1 :=
    List.length_insertIdx_of_le_length hidx _
  by_cases hroot : block.isRoot = true
  · rw [if_pos hroot]
    refine returns_pure ⟨rfl, ?_⟩
    intro block' hblock'
    obtain rfl := Option.some.inj (hblock'.symm.trans hlonger₁)
    exact hlength₁
  · rw [if_neg hroot]
    have hspine₁ : Spine s₁ level := hspine.put hblock rfl rfl
    have hroomy₁ : Roomy n s₁ level := by
      refine hroomy.of_path hspine rfl ?_
      intro k b b' hk hsize hb hb'
      have hsame : s₁.store (s.path.nodes k) = s.store (s.path.nodes k) :=
        TreeState.put_of_ne (hspine.node_ne hk hsize) s _
      rw [hsame, hb] at hb'
      obtain rfl := Option.some.inj hb'
      rfl
    refine (updatePath_returns hfits hspine₁ hroomy₁ hheight (by omega)).imp ?_
    intro _ s₂ hsame
    refine ⟨hsame.path, ?_⟩
    intro block' hblock'
    rw [hsame.length_eq hlonger₁ hblock', hlength₁]

structure Ready (n : ℕ) (s : TreeState E D) (level : ℕ) : Prop where
  lt_size : level + 1 < s.path.size
  roomy : Roomy n s level
  parent : ∀ block, s.store (s.path.nodes (level + 1)) = some block → block.entries.length < n

/-- Three calls inside each other are enough for a new root, which has the old one as its only
child. -/
theorem createNewRootBlock_returns (hfits : layout.Fits n) (hn : 2 ≤ n)
    (hinv : Inv layout s level (level + 1) (· = s.path.nodes level))
    (hsize : level + 1 = s.path.size) (hfuel : 3 ≤ fuel) :
    Returns (functions layout fuel).createNewRootBlock s fun _ s' =>
      s'.path.size = level + 2 ∧ Ready n s' level := by
  obtain ⟨fuel, rfl⟩ : ∃ f, fuel = f + 1 := ⟨fuel - 1, by omega⟩
  obtain ⟨block, hblock, hlevel, -⟩ := hinv.spine.at_level
  have hne : s.path.nodes level ≠ s.next := hinv.sound.ne_next hblock
  have hlast : s.path.size - 1 = level := by omega
  refine returns_bind (get_outcome s) ?_
  rw [hlast]
  refine returns_bind (pathNode_outcome s hinv.spine.lt_size)
    (returns_bind (getBlock_outcome hblock) ?_)
  refine returns_bind (createNode_outcome s _ _ _) ?_
  set s₁ : TreeState E D := { s.put s.next ⟨block.level + 1, true, .branch []⟩ with
    next := s.next + 1 } with hs₁
  refine returns_bind (putBlock_outcome s₁ _ _) ?_
  set s₂ := s₁.put (s.path.nodes level) { block with isRoot := false } with hs₂
  refine returns_bind (setPath_outcome s₂ _) ?_
  set s₃ : TreeState E D := { s₂ with path := s.path.addRoot s.next } with hs₃
  have htop : s₃.path.nodes (level + 1) = s.next := by
    change Function.update s.path.nodes s.path.size s.next (level + 1) = s.next
    rw [hsize, Function.update_self]
  have hnew : s₃.store (s₃.path.nodes (level + 1)) =
      some ⟨block.level + 1, true, .branch []⟩ := by
    rw [htop]
    exact (TreeState.put_of_ne hne.symm s₁ _).trans (s.put_self _ _)
  have hsize₃ : s₃.path.size = level + 2 := congrArg (· + 1) hsize.symm
  have hspine₃ : Spine s₃ (level + 1) :=
    .of_root hsize₃ hnew (congrArg (· + 1) hlevel) rfl
  have hroomy₃ : Roomy n s₃ (level + 1) := by
    intro k b hk hlt
    omega
  rw [hlevel]
  refine (insertToBranchNode_returns hfits 1 hspine₃ hroomy₃ hnew
    (Nat.lt_of_lt_of_le Nat.two_pos hn) (Nat.zero_le _) hsize₃.symm (by omega)).imp ?_
  rintro _ s₄ ⟨hpath, hlength⟩
  have hone (b : Block E D) (hb : s₄.store (s₄.path.nodes (level + 1)) = some b) :
      b.entries.length = 1 := hlength b (hpath ▸ hb)
  rw [← hpath] at hsize₃
  refine ⟨hsize₃, by omega, ?_, ?_⟩
  · intro k b hk hlt hb
    obtain rfl : k = level + 1 := by omega
    rw [hone b hb]
    omega
  · intro b hb
    rw [hone b hb]
    omega

theorem SameShape.ready (hsame : SameShape s s') (hspine : Spine s level)
    (hready : Ready n s level) : Ready n s' level := by
  refine ⟨by rw [hsame.path]; exact hready.lt_size, hsame.roomy hspine hready.roomy, ?_⟩
  intro block' hblock'
  obtain ⟨block, hblock, -⟩ := hspine.link level le_rfl hready.lt_size
  rw [hsame.path] at hblock'
  rw [hsame.length_eq hblock hblock']
  exact hready.parent block hblock

/-- The blocks above are not those of the two halves. -/
theorem Divided.ready {right : ℕ} {leftBody rightBody : Body E D}
    (hdivided : Divided layout s s' level right leftBody rightBody) (hsound : Sound s)
    (hspine : Spine s level) (hready : Ready n s level) : Ready n s' level := by
  have hsame (k : ℕ) (hk : level < k) (hsize : k < s.path.size) :
      s'.store (s.path.nodes k) = s.store (s.path.nodes k) := by
    refine hdivided.others _ (hspine.node_ne hk hsize) ?_
    obtain ⟨block, hblock, -⟩ := hspine.node k hk.le hsize
    exact (Nat.lt_of_lt_of_le (hsound.fresh _ block hblock) hdivided.next_le.1).ne
  refine ⟨by rw [hdivided.path]; exact hready.lt_size, ?_, ?_⟩
  · refine hready.roomy.of_path hspine hdivided.path ?_
    intro k b b' hk hsize hb hb'
    rw [hsame k hk hsize, hb] at hb'
    obtain rfl := Option.some.inj hb'
    rfl
  · intro b hb
    rw [hdivided.path, hsame _ (Nat.lt_succ_self level) hready.lt_size] at hb
    exact hready.parent b hb

theorem splitInto_returns {block : Block E D} {left : ℕ} (hblock : s.store left = some block)
    {splitFn : SplitFn E D} {leftBody rightBody : Body E D}
    (hsplit : splitFn.split block.body = .ok (leftBody, rightBody)) :
    Returns (splitInto layout level left splitFn) s fun _ _ => True := by
  refine returns_bind (getBlock_outcome hblock) (returns_bind (createNode_outcome s _ _ _) ?_)
  rw [hsplit]
  exact returns_bind (putBlock_outcome _ _ _) (returns_bind (putBlock_outcome _ _ _)
    (returns_pure trivial))

/-- A node that can be split is split, where the branches above have at most `n` entries and its
parent has fewer. A root needs no more than room for its two halves. -/
theorem splitNodeRaw_returns (hfits : layout.Fits n) (hn : 2 ≤ n) {block : Block E D}
    {splitFn : SplitFn E D} {leftBody rightBody : Body E D}
    (hinv : Inv layout s level (level + 1) (· = s.path.nodes level))
    (hblock : s.store (s.path.nodes level) = some block)
    (hsplit : splitFn.split block.body = .ok (leftBody, rightBody))
    (hready : level + 1 < s.path.size → Ready n s level)
    (hfuel : 2 * s.path.size + 2 ≤ fuel) :
    Returns ((functions layout fuel).splitNodeRaw level splitFn) s fun _ _ => True := by
  obtain ⟨fuel, rfl⟩ : ∃ f, fuel = f + 1 := ⟨fuel - 1, by omega⟩
  obtain ⟨-, hroot, -, -, hpath⟩ := functions_spec layout fuel
  have hparent : Returns (ensureParent (functions layout fuel) level) s fun _ s' =>
      s'.path.size ≤ s.path.size + 1 ∧ Ready n s' level := by
    refine returns_bind (get_outcome s) ?_
    by_cases hsize : level + 1 = s.path.size
    · rw [if_pos hsize]
      refine (createNewRootBlock_returns hfits hn hinv hsize (by omega)).imp ?_
      rintro _ s' ⟨hsize', hready'⟩
      exact ⟨by omega, hready'⟩
    · rw [if_neg hsize]
      have hlt := hinv.spine.lt_size
      exact returns_pure ⟨Nat.le_succ _, hready (by omega)⟩
  refine (hparent.and (ensureParent_spec hroot hinv)).bind ?_
  rintro _ s₁ ⟨⟨hsize₁, hready₁⟩, hinv₁, hlifted⟩
  have hblock₁ : s₁.store (s₁.path.nodes level) = some { block with isRoot := false } := by
    rw [hlifted.nodes level le_rfl, hlifted.node block hblock]
  obtain ⟨b, hb, hlevel, -⟩ := hinv₁.spine.at_level
  obtain rfl := Option.some.inj (hblock₁.symm.trans hb)
  obtain rfl : block.level = level := hlevel
  refine returns_bind (nodeAt_outcome hinv₁.spine.lt_size) ?_
  refine ((splitInto_returns hblock₁ hsplit).and (splitInto_spec hinv₁ hblock₁ splitFn)).bind ?_
  rintro ⟨right, rightMax⟩ s₂ ⟨-, left', right', -, -, hdivided⟩
  have hready₂ := hdivided.ready hinv₁.sound hinv₁.spine hready₁
  have hinv₂ : Inv layout s₂ block.level (block.level + 1) (· = s₂.path.nodes block.level) := by
    rw [hdivided.path]
    exact hdivided.inv
  have hsize₂ : s₂.path.size = s₁.path.size := congrArg TreePath.size hdivided.path
  obtain ⟨height, hheight⟩ : ∃ height, block.level + (height + 1) = s₂.path.size :=
    ⟨s₂.path.size - block.level - 1, by have := hready₂.lt_size; omega⟩
  refine (updatePath_returns hfits hinv₂.spine hready₂.roomy hheight (by omega)).bind ?_
  intro _ s₃ hsame
  have hspine₃ := hsame.spine hinv₂.spine
  have hready₃ := hsame.ready hinv₂.spine hready₂
  obtain ⟨parent, hparent₃, hmem⟩ := hspine₃.link block.level le_rfl hready₃.lt_size
  refine returns_bind (nodeAt_outcome hready₃.lt_size) (returns_bind (getBlock_outcome hparent₃) ?_)
  refine returns_bind (nodeAt_outcome hspine₃.lt_size) ?_
  refine (getChildIdx_returns hmem).bind ?_
  rintro idx _ ⟨hidx, rfl⟩
  have hinsert : Returns ((functions layout fuel).insertToBranchNode (block.level + 1) (idx + 1)
      rightMax right) s₃ fun _ _ => True := by
    obtain ⟨e, he, -⟩ := Block.findChildIdx_some hidx
    obtain ⟨hlt, -⟩ := List.getElem?_eq_some_iff.mp he
    refine (insertToBranchNode_returns hfits height
      (hspine₃.mono (Nat.le_succ _) hready₃.lt_size) (hready₃.roomy.mono (Nat.le_succ _)) hparent₃
      (hready₃.parent parent hparent₃) hlt ?_ (by omega)).imp fun _ _ _ => trivial
    rw [hsame.path]
    omega
  -- there is room for the right node, so there is no second attempt
  have hright : Returns (insertRightNode (functions layout fuel) block.level idx rightMax right) s₃
      fun _ _ => True := by
    refine returns_bind (nodeAt_outcome hready₃.lt_size)
      (returns_bind (getBlock_outcome hparent₃) (hinsert.attempt.bind ?_))
    rintro _ s₄ ⟨_, rfl, -⟩
    exact returns_pure trivial
  refine hright.bind fun _ s₄ _ => ?_
  exact returns_bind (get_outcome s₄) ⟨(), _, setPath_outcome s₄ _, trivial⟩

end Memoria.TreeUpdate

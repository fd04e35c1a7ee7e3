import Memoria.Proof.TreeRows

/-!
# What splits and updates do to a path

The functions call each other. For each there is a specification, and each is met if those of the
functions it calls are: the tree stays sound, the path goes from the level up to the root, all
entries above are right, and what is below the level is left alone. An update of an entry may split
a branch; the path then goes to the half that has the entry.
-/

namespace Memoria.TreeUpdate

open Lib Prog

variable {E D : Type} {s s' s'' : TreeState E D} {layout : Layout E D} {level : ℕ}
  {self : Self E D} {except : ℕ → Prop}

structure Updated (layout : Layout E D) (s s' : TreeState E D) (level : ℕ) : Prop where
  inv : Inv layout s' level (level + 1) fun _ => False
  keeps : Keeps s s' (level + 1) fun _ => False
  row : s'.row level = s.row level

def PathSpec (layout : Layout E D) (f : ℕ → Op E D Unit) : Prop :=
  ∀ (s : TreeState E D) (level : ℕ), Inv layout s level (level + 1) (· = s.path.nodes level) →
    Ends (f level) s (fun _ s' => Updated layout s s' level) NotPacked

structure Grown (layout : Layout E D) (s s' : TreeState E D) (level id : ℕ) (block : Block E D) :
    Prop where
  inv : Inv layout s' level level fun _ => False
  keeps : Keeps s s' level (· = id)
  node : s'.path.nodes level = s.path.nodes level
  block : s'.store (s.path.nodes level) = some block
  row : s'.row level = s.row level
  others : ∀ id ∈ s.row level, id ≠ s.path.nodes level → s'.childrenOf id = s.childrenOf id

def InsertSpec (layout : Layout E D) (f : ℕ → ℕ → E → ℕ → Op E D Unit) : Prop :=
  ∀ (s : TreeState E D) (level idx id : ℕ) (block child : Block E D),
    Inv layout s level level (fun _ => False) →
    s.store (s.path.nodes level) = some block → idx ≤ block.entries.length →
    s.store id = some child → child.level + 1 = level → child.isRoot = false → Orphan s id →
    Ends (f level idx (layout.maxKeys child.body) id) s
      (fun _ s' => Grown layout s s' level id
        (block.withEntries (block.entries.insertIdx idx (layout.maxKeys child.body, id))))
      (fun failure s' => failure = .packed →
        s' = s ∧ layout.roomToInsert block idx (layout.maxKeys child.body) = false)

/-- After a change of a branch, `ctr_update_path` makes all entries right. -/
theorem PathSpec.raise {f : ℕ → Op E D Unit} (hpath : PathSpec layout f) (hsound : Sound s)
    (hspine : Spine s level) (hexact : Exact layout s level (· = s.path.nodes level)) :
    Ends (f level) s (fun _ s' => Inv layout s' level level (fun _ => False) ∧
      Updated layout s s' level) NotPacked := by
  obtain ⟨block, hblock, hlevel, -⟩ := hspine.at_level
  have hinv : Inv layout s level (level + 1) (· = s.path.nodes level) :=
    ⟨hsound, hspine, hexact.mono (Nat.le_succ level) fun _ => id⟩
  refine (hpath s level hinv).imp ?_ (fun _ _ => id)
  rintro _ s' hupdated
  obtain ⟨hsound', hspine', hentries⟩ := hupdated.inv
  exact ⟨⟨hsound', hspine', hexact.join hblock hlevel.ge hsound' hentries hupdated.keeps⟩, hupdated⟩

/-- The entry of a root is nowhere. -/
theorem Exact.of_root (hexact : Exact layout s level (· = s.path.nodes level)) (hsound : Sound s)
    {block : Block E D} (hblock : s.store (s.path.nodes level) = some block)
    (hroot : block.isRoot = true) : Exact layout s level fun _ => False := by
  have horphan := hsound.orphan_of_isRoot hblock hroot
  intro id b hb hlevel e he _ child hchild
  refine hexact id b hb hlevel e he ?_ child hchild
  intro heq
  exact horphan id b hb (heq ▸ Block.mem_children he)

/-- Uses what an update of the path does one call further down. -/
theorem insertToBranchNode_spec (hpath : PathSpec layout self.updatePath) :
    InsertSpec layout (insertToBranchNode layout self) := by
  intro s level idx id block child hinv hblock hidx hchild hlevel hroot horphan
  obtain ⟨b, hb, hblevel, hbroot⟩ := hinv.spine.at_level
  obtain rfl := Option.some.inj (hblock.symm.trans hb)
  refine ends_bind (nodeAt_outcome hinv.spine.lt_size) ?_
  refine ends_bind (getBlock_outcome hblock) ?_
  set entry := (layout.maxKeys child.body, id) with hentry
  set block' := block.withEntries (block.entries.insertIdx idx entry) with hblock'
  by_cases hroom : layout.roomToInsert block idx (layout.maxKeys child.body) = true
  · rw [if_pos hroom]
    refine ends_bind (putBlock_outcome s _ block') ?_
    set s₁ := s.put (s.path.nodes level) block' with hs₁
    have hsound : Sound s₁ := hinv.sound.insert hblock hchild (by omega) hroot horphan hidx
    have hblock₁ : s₁.store (s.path.nodes level) = some block' := s.put_self _ _
    have hspine : Spine s₁ level := hinv.spine.put hblock rfl rfl
    have hexact : Exact layout s₁ level (· = s₁.path.nodes level) := by
      refine hinv.entries.put ?_ (fun _ _ _ _ _ _ => not_false)
      intro e he hne c hc
      rcases (List.mem_insertIdx hidx).mp he with rfl | hold
      · obtain rfl := Option.some.inj (hchild.symm.trans hc)
        rfl
      · exact hinv.entries _ block hblock hblevel.ge e hold not_false c hc
    have hkeeps : Keeps s s₁ level (· = id) := by
      refine Keeps.put hblock hblevel.ge hblevel.ge ?_
      intro d hd hmem
      obtain ⟨e, he, rfl⟩ := Block.exists_entry hmem
      rcases (List.mem_insertIdx hidx).mp he with rfl | hold
      · exact absurd rfl hd
      · exact Block.mem_children hold
    have hothers (node : ℕ) (hne : node ≠ s.path.nodes level) :
        s₁.childrenOf node = s.childrenOf node :=
      TreeState.childrenOf_congr (TreeState.put_of_ne hne s block')
    have hrow : s₁.row level = s.row level := by
      refine row_of_blocks hinv.sound hinv.spine rfl rfl hinv.spine.lt_size ?_
      intro node b hb hlt
      refine (TreeState.put_of_ne ?_ s block').trans hb
      rintro rfl
      obtain rfl := Option.some.inj (hb.symm.trans hblock)
      exact absurd hblevel hlt.ne'
    by_cases hbr : block.isRoot = true
    · rw [if_pos hbr]
      exact ends_pure ⟨⟨hsound, hspine, hexact.of_root hsound hblock₁ hbr⟩, hkeeps, rfl, hblock₁,
        hrow, fun node _ => hothers node⟩
    · rw [if_neg hbr]
      refine (hpath.raise hsound hspine hexact).imp ?_ ?_
      · rintro _ s₂ ⟨hinv₂, hupdated⟩
        have hkeeps₂ := hupdated.keeps
        refine ⟨hinv₂, ?_, hkeeps₂.nodes level (Nat.lt_succ_self _), ?_,
          hupdated.row.trans hrow, ?_⟩
        · exact hkeeps.trans (hkeeps₂.mono (Nat.le_succ level)).weaken
        · exact (hkeeps₂.blocks _ block' (Nat.lt_succ_of_le hblevel.le)).mpr hblock₁
        · intro node hnode hne
          obtain ⟨b, hb, hbl⟩ := row_level hinv.sound hinv.spine hinv.spine.lt_size node hnode
          have hb₁ : s₁.store node = some b := (TreeState.put_of_ne hne s block').trans hb
          have hb₂ := (hkeeps₂.blocks node b (Nat.lt_succ_of_le hbl.le)).mpr hb₁
          exact TreeState.childrenOf_congr (hb₂.trans hb.symm)
      · intro failure s₂ hnot hpacked
        exact absurd hpacked hnot
  · rw [if_neg hroom]
    refine ends_throw ?_
    intro _
    exact ⟨rfl, Bool.eq_false_of_not_eq_true hroom⟩

structure Lifted (s s' : TreeState E D) (level : ℕ) : Prop where
  blocks : ∀ id block, block.level ≤ level → id ≠ s.path.nodes level →
    (s'.store id = some block ↔ s.store id = some block)
  node : ∀ block, s.store (s.path.nodes level) = some block →
    s'.store (s.path.nodes level) = some { block with isRoot := false }
  orphans : ∀ id block, s.store id = some block → block.level < level → Orphan s id → Orphan s' id
  nodes : ∀ k ≤ level, s'.path.nodes k = s.path.nodes k
  lt_size : level + 1 < s'.path.size
  next_le : s.next ≤ s'.next
  row : s'.row level = s.row level

def RootSpec (layout : Layout E D) (f : Op E D Unit) : Prop :=
  ∀ (s : TreeState E D) (level : ℕ), Inv layout s level (level + 1) (· = s.path.nodes level) →
    level + 1 = s.path.size →
    Ends f s (fun _ s' => Inv layout s' level (level + 1) (fun _ => False) ∧ Lifted s s' level)
      NotPacked

theorem createNewRootBlock_spec (hinsert : InsertSpec layout self.insertToBranchNode) :
    RootSpec layout (createNewRootBlock layout self) := by
  intro s level hinv hsize
  obtain ⟨block, hblock, hlevel, hroot⟩ := hinv.spine.at_level
  have hsound := hinv.sound
  have hlast : s.path.size - 1 = level := by omega
  have hne : s.path.nodes level ≠ s.next := hsound.ne_next hblock
  refine ends_bind (get_outcome s) ?_
  rw [hlast]
  refine ends_bind (pathNode_outcome s hinv.spine.lt_size) ?_
  refine ends_bind (getBlock_outcome hblock) ?_
  refine ends_bind (createNode_outcome s _ _ _) ?_
  set s₁ : TreeState E D := { s.put s.next ⟨block.level + 1, true, .branch []⟩ with
    next := s.next + 1 } with hs₁
  have hblock₁ : s₁.store (s.path.nodes level) = some block :=
    (TreeState.put_of_ne hne s _).trans hblock
  have hnew₁ : s₁.store s.next = some ⟨block.level + 1, true, .branch []⟩ := s.put_self _ _
  refine ends_bind (putBlock_outcome s₁ _ _) ?_
  set child : Block E D := { block with isRoot := false } with hchild
  set s₂ := s₁.put (s.path.nodes level) child with hs₂
  refine ends_bind (setPath_outcome s₂ _) ?_
  set s₃ : TreeState E D := { s₂ with path := s.path.addRoot s.next } with hs₃
  have hsound₃ : Sound s₃ := by
    refine Sound.withPath ?_ _
    exact (hsound.create rfl).put hblock₁ rfl (fun _ => rfl) rfl
  have hnew : s₃.store s.next = some ⟨block.level + 1, true, .branch []⟩ :=
    (TreeState.put_of_ne hne.symm s₁ _).trans hnew₁
  have hnode : s₃.store (s.path.nodes level) = some child := s₁.put_self _ _
  have htop : s₃.path.nodes (level + 1) = s.next := by
    change Function.update s.path.nodes s.path.size s.next (level + 1) = s.next
    rw [hsize, Function.update_self]
  have hold (k : ℕ) (hk : k ≤ level) : s₃.path.nodes k = s.path.nodes k :=
    Function.update_of_ne (by omega) ..
  have hcases (id : ℕ) (b : Block E D) (hb : s₃.store id = some b) :
      id = s.next ∧ b = ⟨block.level + 1, true, .branch []⟩ ∨
        id = s.path.nodes level ∧ b = child ∨
        id ≠ s.path.nodes level ∧ s.store id = some b := by
    rcases TreeState.put_cases hb with ⟨hid, hb⟩ | ⟨hid, hb⟩
    · exact .inr (.inl ⟨hid, hb⟩)
    · rcases TreeState.put_cases hb with ⟨hid', hb⟩ | ⟨-, hb⟩
      · exact .inl ⟨hid', hb⟩
      · exact .inr (.inr ⟨hid, hb⟩)
  have horphan : Orphan s₃ (s.path.nodes level) := by
    have hnone := hsound.orphan_of_isRoot hblock (hroot.mpr hsize)
    intro id b hb
    rcases hcases id b hb with ⟨-, rfl⟩ | ⟨-, rfl⟩ | ⟨-, hb⟩
    · exact List.not_mem_nil
    · exact hnone (s.path.nodes level) block hblock
    · exact hnone id b hb
  have hinv₃ : Inv layout s₃ (level + 1) (level + 1) fun _ => False := by
    refine ⟨hsound₃, ?_, ?_⟩
    · refine Spine.of_root (congrArg (· + 1) hsize.symm) (htop.symm ▸ hnew) ?_ rfl
      exact congrArg (· + 1) hlevel
    · refine hinv.entries.of_blocks ?_ ?_
      · intro id b hb hle
        rcases hcases id b hb with ⟨-, rfl⟩ | ⟨-, rfl⟩ | ⟨-, hb⟩
        · exact .inl rfl
        · have hle' : level + 1 ≤ block.level := hle
          omega
        · exact .inr hb
      · intro id b hb hle c hc _
        have hnot : c ≠ s.path.nodes level := by
          rintro rfl
          exact hsound.orphan_of_isRoot hblock (hroot.mpr hsize) id b hb hc
        refine ⟨hnot, ?_⟩
        intro d hd
        obtain ⟨d₀, hd₀, -⟩ := hsound.child id b hb c hc
        rcases hcases c d hd with ⟨rfl, -⟩ | ⟨hroot', -⟩ | ⟨-, hd⟩
        · exact absurd rfl (hsound.ne_next hd₀)
        · exact absurd hroot' hnot
        · exact ⟨d, hd, rfl⟩
  have hcall := hinsert s₃ (level + 1) 0 (s.path.nodes level) _ child hinv₃
    (htop.symm ▸ hnew) (Nat.zero_le _) hnode (congrArg (· + 1) hlevel) rfl horphan
  rw [hlevel]
  refine hcall.imp ?_ ?_
  · rintro _ s₄ ⟨hinv₄, hkeeps, hnodes, hparent, hrow, -⟩
    have hchild₄ : s₄.store (s.path.nodes level) = some child :=
      (hkeeps.blocks _ child (Nat.lt_succ_of_le hlevel.le)).mpr hnode
    have hpath (k : ℕ) (hk : k ≤ level) : s₄.path.nodes k = s.path.nodes k :=
      (hkeeps.nodes k (Nat.lt_succ_of_le hk)).trans (hold k hk)
    have hspine : Spine s₄ level := by
      refine hinv₄.spine.below child _ ?_ hlevel rfl (hnodes.symm ▸ hparent) ?_
      · rw [hpath level le_rfl]
        exact hchild₄
      · rw [hpath level le_rfl]
        exact List.mem_cons_self
    refine ⟨⟨hinv₄.sound, hspine, hinv₄.entries⟩, ?_, ?_, ?_, hpath,
      hinv₄.spine.lt_size, (Nat.le_succ s.next).trans hkeeps.next_le, ?_⟩
    · intro id b hle hid
      refine (hkeeps.blocks id b (Nat.lt_succ_of_le hle)).trans ⟨?_, ?_⟩
      · intro hb
        rcases hcases id b hb with ⟨-, rfl⟩ | ⟨hroot', -⟩ | ⟨-, hb⟩
        · have hle' : block.level + 1 ≤ level := hle
          omega
        · exact absurd hroot' hid
        · exact hb
      · intro hb
        exact (TreeState.put_of_ne hid s₁ _).trans
          ((TreeState.put_of_ne (hsound.ne_next hb) s _).trans hb)
    · intro b hb
      obtain rfl := Option.some.inj (hb.symm.trans hblock)
      exact hchild₄
    · intro id b hb hlt hnone
      have hne' : id ≠ s.path.nodes level := by
        rintro rfl
        obtain rfl := Option.some.inj (hb.symm.trans hblock)
        omega
      have hb₃ : s₃.store id = some b := (TreeState.put_of_ne hne' s₁ _).trans
        ((TreeState.put_of_ne (hsound.ne_next hb) s _).trans hb)
      refine hkeeps.orphans id b hb₃ (hlt.trans (Nat.lt_succ_self _)) hne' ?_
      intro node c hc
      rcases hcases node c hc with ⟨-, rfl⟩ | ⟨-, rfl⟩ | ⟨-, hc⟩
      · exact List.not_mem_nil
      · exact hnone (s.path.nodes level) block hblock
      · exact hnone node c hc
    · have htop₃ : s₃.row (level + 1) = [s.next] := by
        have htop' := row_top s₃
        have hsize₃ : s₃.path.size - 1 = level + 1 := congrArg (· + 1 - 1) hsize.symm
        rwa [hsize₃, htop] at htop'
      have htop₀ : s.row level = [s.path.nodes level] := hlast ▸ row_top s
      rw [row_succ hinv₄.spine.lt_size, hrow, htop₃, htop₀, List.flatMap_singleton,
        TreeState.childrenOf_eq (htop ▸ hparent)]
      rfl
  · intro failure s₄ hfail hpacked
    have hroom := (hfail hpacked).2
    rw [layout.insert_first _ _ rfl] at hroom
    exact absurd hroom Bool.true_eq_false_eq_False

theorem Lifted.keeps (hlifted : Lifted s s' level) {block : Block E D}
    (hblock : s.store (s.path.nodes level) = some block) (hlevel : block.level = level) :
    Keeps s s' level fun _ => False := by
  refine ⟨?_, fun id b hb hlt _ => hlifted.orphans id b hb hlt,
    fun k hk => hlifted.nodes k hk.le, hlifted.next_le⟩
  intro id b hlt
  by_cases hid : id = s.path.nodes level
  · subst hid
    rw [hblock, hlifted.node block hblock]
    constructor <;> rintro ⟨⟩ <;> exact absurd hlevel hlt.ne
  · exact hlifted.blocks id b hlt.le hid

/-- After this a node has a parent. -/
theorem ensureParent_spec (hroot : RootSpec layout self.createNewRootBlock)
    (hinv : Inv layout s level (level + 1) (· = s.path.nodes level)) :
    Ends (ensureParent self level) s
      (fun _ s' => Inv layout s' level (level + 1) (· = s'.path.nodes level) ∧ Lifted s s' level)
      NotPacked := by
  refine ends_bind (get_outcome s) ?_
  by_cases hsize : level + 1 = s.path.size
  · rw [if_pos hsize]
    refine (hroot s level hinv hsize).imp ?_ (fun _ _ => id)
    rintro _ s' ⟨hinv', hlifted⟩
    exact ⟨⟨hinv'.sound, hinv'.spine, hinv'.entries.mono le_rfl fun _ => False.elim⟩, hlifted⟩
  · rw [if_neg hsize]
    obtain ⟨block, hblock, -, hisroot⟩ := hinv.spine.at_level
    have hlt := hinv.spine.lt_size
    refine ends_pure ⟨hinv, fun _ _ _ _ => Iff.rfl, ?_, fun _ _ _ _ => id, fun _ _ => rfl, by omega,
      le_rfl, rfl⟩
    intro b hb
    obtain rfl := Option.some.inj (hb.symm.trans hblock)
    have hnot : b.isRoot = false := Bool.eq_false_of_not_eq_true fun h => hsize (hisroot.mp h)
    rw [hb, ← hnot]

structure Divided (layout : Layout E D) (s s' : TreeState E D) (level right : ℕ)
    (leftBody rightBody : Body E D) : Prop where
  inv : Inv layout s' level (level + 1) (· = s.path.nodes level)
  path : s'.path = s.path
  left_eq : s'.store (s.path.nodes level) = some ⟨level, false, leftBody⟩
  right_eq : s'.store right = some ⟨level, false, rightBody⟩
  next_le : s.next ≤ right ∧ s.next ≤ s'.next
  orphan : Orphan s' right
  others : ∀ id, id ≠ s.path.nodes level → id ≠ right → s'.store id = s.store id
  orphans : ∀ id, Orphan s id → Orphan s' id
  row : s'.row level = s.row level

theorem SplitFn.children_eq (f : SplitFn E D) {body left right : Body E D}
    (hsplit : f.split body = .ok (left, right)) (level level' level'' : ℕ)
    (isRoot isRoot' isRoot'' : Bool) :
    (Block.mk level isRoot body).children =
      (Block.mk level' isRoot' left).children ++ (Block.mk level'' isRoot'' right).children := by
  obtain ⟨xs, ys, rfl, rfl, rfl⟩ | ⟨xs, ys, rfl, rfl, rfl⟩ := f.in_order _ _ _ hsplit
  · rfl
  · exact List.map_append

theorem splitInto_spec (hinv : Inv layout s level (level + 1) (· = s.path.nodes level))
    {body : Body E D} (hblock : s.store (s.path.nodes level) = some ⟨level, false, body⟩)
    (f : SplitFn E D) :
    Ends (splitInto layout level (s.path.nodes level) f) s
      (fun result s' => ∃ left right, f.split body = .ok (left, right) ∧
        result.2 = layout.maxKeys right ∧ Divided layout s s' level result.1 left right)
      (fun failure _ => failure = .packed → f.split body = .error .packed) := by
  have hsound := hinv.sound
  have hfresh := hsound.next_fresh
  have hne : s.path.nodes level ≠ s.next := hsound.ne_next hblock
  refine ends_bind (getBlock_outcome hblock) ?_
  refine ends_bind (createNode_outcome s _ _ _) ?_
  have hempty : (Block.mk level false body.cleared).entries = [] := by
    cases body <;> rfl
  set cleared : Block E D := ⟨level, false, body.cleared⟩ with hcleared
  set s₁ : TreeState E D := { s.put s.next cleared with next := s.next + 1 } with hs₁
  cases hsplit : f.split body with
  | error failure =>
      refine ends_throw ?_
      rintro rfl
      rfl
  | ok halves =>
      obtain ⟨left, right⟩ := halves
      refine ends_bind (putBlock_outcome s₁ _ _) ?_
      refine ends_bind (putBlock_outcome _ _ _) ?_
      have hblock₁ : s₁.store (s.path.nodes level) = some ⟨level, false, body⟩ :=
        (TreeState.put_of_ne hne s cleared).trans hblock
      have hright₁ : s₁.store s.next = some cleared := s.put_self _ _
      set s₂ := (s₁.put (s.path.nodes level) ⟨level, false, left⟩).put s.next
        ⟨level, false, right⟩ with hs₂
      have hleft₂ : s₂.store (s.path.nodes level) = some ⟨level, false, left⟩ :=
        (TreeState.put_of_ne hne _ _).trans (s₁.put_self _ _)
      have hright₂ : s₂.store s.next = some ⟨level, false, right⟩ := TreeState.put_self _ _ _
      have hothers (id : ℕ) (ha : id ≠ s.path.nodes level) (hr : id ≠ s.next) :
          s₂.store id = s.store id :=
        (TreeState.put_of_ne hr _ _).trans
          ((TreeState.put_of_ne ha s₁ _).trans (TreeState.put_of_ne hr s cleared))
      have hchildren := f.children_eq hsplit level level level false false false
      have hsound₂ : Sound s₂ := by
        refine (hsound.create hempty).split hblock₁ hright₁ hne ?_ rfl rfl rfl id id hchildren
        rw [Block.children, hempty, List.map_nil]
      have horphans (id : ℕ) (hnone : Orphan s id) : Orphan s₂ id := by
        have hbody := hnone _ _ hblock
        rw [hchildren, List.mem_append, not_or] at hbody
        intro node b hb
        by_cases hr : node = s.next
        · subst hr
          obtain rfl := Option.some.inj (hb.symm.trans hright₂)
          exact hbody.2
        · by_cases ha : node = s.path.nodes level
          · subst ha
            obtain rfl := Option.some.inj (hb.symm.trans hleft₂)
            exact hbody.1
          · exact hnone node b ((hothers node ha hr).symm.trans hb)
      have hspine : Spine s₂ level := by
        refine hinv.spine.of_blocks rfl ?_
        intro k b hk hsize hb
        have hr : s.path.nodes k ≠ s.next := hsound.ne_next hb
        by_cases ha : s.path.nodes k = s.path.nodes level
        · rw [ha] at hb ⊢
          obtain rfl := Option.some.inj (hb.symm.trans hblock)
          refine ⟨_, hleft₂, rfl, rfl, ?_⟩
          intro hlt
          obtain ⟨c, hc, hclevel, -⟩ := hinv.spine.node k hk hsize
          obtain rfl := Option.some.inj (hc.symm.trans (ha ▸ hb))
          exact absurd hclevel hlt.ne
        · exact ⟨b, (hothers _ ha hr).trans hb, rfl, rfl, fun _ => List.Subset.refl _⟩
      have hexact : Exact layout s₂ (level + 1) (· = s.path.nodes level) := by
        refine hinv.entries.of_blocks ?_ ?_
        · intro id b hb hle
          have hr : id ≠ s.next := by
            rintro rfl
            obtain rfl := Option.some.inj (hb.symm.trans hright₂)
            exact absurd hle (Nat.not_succ_le_self level)
          have ha : id ≠ s.path.nodes level := by
            rintro rfl
            obtain rfl := Option.some.inj (hb.symm.trans hleft₂)
            exact absurd hle (Nat.not_succ_le_self level)
          exact .inr ((hothers id ha hr).symm.trans hb)
        · intro id b hb hle c hc ha
          refine ⟨ha, ?_⟩
          intro d hd
          obtain ⟨d₀, hd₀, -⟩ := hsound.child id b hb c hc
          exact ⟨d, (hothers c ha (hsound.ne_next hd₀)).symm.trans hd, rfl⟩
      have hrow : s₂.row level = s.row level := by
        refine row_of_blocks hsound hinv.spine rfl rfl hinv.spine.lt_size ?_
        intro id b hb hlt
        have ha : id ≠ s.path.nodes level := by
          rintro rfl
          obtain rfl := Option.some.inj (hb.symm.trans hblock)
          exact Nat.lt_irrefl level hlt
        exact (hothers id ha (hsound.ne_next hb)).trans hb
      refine ends_pure ⟨left, right, rfl, rfl, ?_⟩
      exact ⟨⟨hsound₂, hspine, hexact⟩, rfl, hleft₂, hright₂,
        ⟨le_rfl, Nat.le_succ s.next⟩,
        horphans _ (hsound.orphan_of_fresh hfresh), hothers, horphans, hrow⟩

theorem Divided.keeps {right : ℕ} {leftBody rightBody : Body E D} {block : Block E D}
    (hdivided : Divided layout s s' level right leftBody rightBody) (hsound : Sound s)
    (hblock : s.store (s.path.nodes level) = some block) (hlevel : block.level = level) :
    Keeps s s' level fun _ => False := by
  refine ⟨?_, fun id b _ _ _ => hdivided.orphans id, fun k _ => congrFun (congrArg _ hdivided.path) k,
    hdivided.next_le.2⟩
  intro id b hlt
  by_cases hl : id = s.path.nodes level
  · subst hl
    rw [hblock, hdivided.left_eq]
    constructor
    · rintro ⟨⟩
      exact absurd hlt (Nat.lt_irrefl _)
    · rintro ⟨⟩
      exact absurd hlevel hlt.ne
  · by_cases hr : id = right
    · subst hr
      rw [hdivided.right_eq]
      constructor
      · rintro ⟨⟩
        exact absurd hlt (Nat.lt_irrefl _)
      · intro hb
        exact absurd (hsound.fresh id b hb) (Nat.not_lt_of_le hdivided.next_le.1)
    · rw [hdivided.others id hl hr]

structure Halves (layout : Layout E D) (s s' : TreeState E D) (level : ℕ)
    (leftBody rightBody : Body E D) : Prop where
  left_eq : s'.store (s.path.nodes level) = some ⟨level, false, leftBody⟩
  right_eq : s'.store (s'.path.nodes level) = some ⟨level, false, rightBody⟩
  fresh : s.store (s'.path.nodes level) = none
  lt_size : level + 1 < s'.path.size
  beside : ∃ parent i, s'.store (s'.path.nodes (level + 1)) = some parent ∧
    parent.entries[i]? = some (layout.maxKeys leftBody, s.path.nodes level) ∧
    parent.entries[i + 1]? = some (layout.maxKeys rightBody, s'.path.nodes level)
  others : ∀ id block, block.level = level → s'.store id = some block →
    id = s.path.nodes level ∨ id = s'.path.nodes level ∨ s.store id = some block
  row : ∃ before behind, s.row level = before ++ s.path.nodes level :: behind ∧
    s'.row level = before ++ s.path.nodes level :: s'.path.nodes level :: behind

def SplitSpec (layout : Layout E D) (f : ℕ → SplitFn E D → Op E D Unit) : Prop :=
  ∀ (s : TreeState E D) (level : ℕ) (block : Block E D) (g : SplitFn E D),
    Inv layout s level (level + 1) (· = s.path.nodes level) →
    s.store (s.path.nodes level) = some block →
    Ends (f level g) s
      (fun _ s' => ∃ left right, g.split block.body = .ok (left, right) ∧
        Inv layout s' level (level + 1) (fun _ => False) ∧
        Keeps s s' level (fun _ => False) ∧ Halves layout s s' level left right)
      (fun failure _ => failure = .packed → g.split block.body = .error .packed)

theorem not_half {before behind : List ℕ} {left right id : ℕ}
    (hnodup : (before ++ left :: right :: behind).Nodup) (hid : id ∈ before ++ behind) :
    id ≠ left ∧ id ≠ right ∧ id ∈ before ++ left :: right :: behind := by
  have hmem : id ∈ before ++ right :: behind :=
    (List.sublist_cons_self _ behind).append_left before |>.subset hid
  have hsub : (before ++ right :: behind).Sublist (before ++ left :: right :: behind) :=
    (List.sublist_cons_self _ _).append_left before
  exact ⟨ne_of_nodup_middle hnodup hmem, ne_of_nodup_middle (hsub.nodup hnodup) hid,
    hsub.subset hmem⟩

/-- What is below the halves of a node is in order, as before. -/
theorem Halves.row_below (hinv : Inv layout s level (level + 1) except)
    (hsound : Sound s') (hspine : Spine s' level) {block : Block E D} {left right : Body E D}
    {g : SplitFn E D} (hsplit : g.split block.body = .ok (left, right))
    (hblock : s.store (s.path.nodes level) = some block)
    (hhalves : Halves layout s s' level left right) {lower : ℕ} (hlower : lower + 1 = level) :
    s'.row lower = s.row lower := by
  subst hlower
  obtain ⟨before, behind, hrow, hrow'⟩ := hhalves.row
  have hnodup := row_nodup hsound hspine hspine.lt_size
  rw [hrow'] at hnodup
  refine row_split hinv.spine.lt_size hspine.lt_size ?_ hrow hrow' ?_
  · intro id hid
    obtain ⟨hleft, hright, hmem⟩ := not_half hnodup hid
    rw [← hrow'] at hmem
    obtain ⟨b, hb, hlevel⟩ := row_level hsound hspine hspine.lt_size id hmem
    obtain hl | hr | hsame := hhalves.others id b hlevel hb
    · exact absurd hl hleft
    · exact absurd hr hright
    · exact TreeState.childrenOf_congr (hb.trans hsame.symm)
  · rw [TreeState.childrenOf_eq hblock, TreeState.childrenOf_eq hhalves.left_eq,
      TreeState.childrenOf_eq hhalves.right_eq]
    exact g.children_eq hsplit ..

def Chosen (s' s'' : TreeState E D) (level idx : ℕ) (e : E × ℕ) : Prop :=
  ∃ node block parent, s'' = { s' with path := s'.path.set level node } ∧
    s'.store node = some block ∧ block.level = level ∧ block.isRoot = false ∧
    s'.store (s'.path.nodes (level + 1)) = some parent ∧ node ∈ parent.children ∧
    block.entries[idx]? = some e

theorem TreePath.set_self (path : TreePath) (level : ℕ) :
    path.set level (path.nodes level) = path := by
  rw [TreePath.set, Function.update_eq_self]

theorem TreePath.assign_set (path : TreePath) (level node : ℕ) :
    path.assign (path.set level node) level = path.set level node := by
  have hnodes : (path.assign (path.set level node) level).nodes =
      (path.set level node).nodes := by
    funext k
    change (if level ≤ k then Function.update path.nodes level node k else path.nodes k) =
      Function.update path.nodes level node k
    by_cases hk : level ≤ k
    · rw [if_pos hk]
    · rw [if_neg hk, Function.update_of_ne (by omega)]
  exact congrArg (TreePath.mk · path.size) hnodes

theorem Chosen.row {idx k : ℕ} {e : E × ℕ} (hchosen : Chosen s' s'' level idx e)
    (hlt : level + 1 < s'.path.size) (hk : k < s'.path.size) : s''.row k = s'.row k := by
  obtain ⟨node, block, parent, rfl, -⟩ := hchosen
  exact row_congr rfl (Function.update_of_ne (by omega) ..) hk fun _ _ _ _ _ => rfl

section Choice

variable {entries : List (E × ℕ)} {splitIdx idx : ℕ} {e : E × ℕ}
  (hhalves : Halves layout s s' level (.branch (entries.take splitIdx))
    (.branch (entries.drop splitIdx)))
  (he : entries[idx]? = some e)

include hhalves he

theorem chosen_left (hsound : Sound s') (hlt : idx < splitIdx) : Chosen s'
    { s' with path := s'.path.set level (s.path.nodes level) } level idx e ∧
      (expectAdjacentNode false s'.path level : Op E D TreePath).outcome s' =
        some (.ok (s'.path.set level (s.path.nodes level)), s') := by
  obtain ⟨parent, i, hparent, hi, hi'⟩ := hhalves.beside
  constructor
  · refine ⟨_, _, parent, rfl, hhalves.left_eq, rfl, rfl, hparent, ?_, ?_⟩
    · exact Block.mem_children (List.mem_of_getElem? hi)
    · change (entries.take splitIdx)[idx]? = some e
      rw [List.getElem?_take_of_lt hlt, he]
  · exact expectPrev_outcome hhalves.lt_size hhalves.right_eq rfl hparent
      (hsound.nodup _ _ hparent) hi hi' rfl

theorem chosen_right (hge : splitIdx ≤ idx) : Chosen s' s' level (idx - splitIdx) e := by
  obtain ⟨parent, i, hparent, -, hi'⟩ := hhalves.beside
  refine ⟨_, _, parent, ?_, hhalves.right_eq, rfl, rfl, hparent, ?_, ?_⟩
  · rw [TreePath.set_self]
  · exact Block.mem_children (List.mem_of_getElem? hi')
  · change (entries.drop splitIdx)[idx - splitIdx]? = some e
    rw [List.getElem?_drop, Nat.add_sub_cancel' hge, he]

theorem chooseNode_spec (hsound : Sound s') {err : Failure → TreeState E D → Prop} :
    Ends (chooseNode level idx splitIdx) s' (fun result s'' => Chosen s' s'' level result.2 e)
      err := by
  rw [chooseNode]
  by_cases hlt : idx < splitIdx
  · rw [if_pos hlt]
    obtain ⟨hchosen, hprev⟩ := chosen_left hhalves he hsound hlt
    have hexpect : (expectPrevNode level : Op E D Unit).outcome s' =
        some (.ok (), { s' with path := s'.path.set level (s.path.nodes level) }) := by
      rw [expectPrevNode, bind_outcome (get_outcome s'), bind_outcome hprev]
      rfl
    exact ends_bind hexpect (ends_pure hchosen)
  · rw [if_neg hlt]
    exact ends_pure (chosen_right hhalves he (Nat.le_of_not_lt hlt))

end Choice

theorem chooseParent_spec {entries : List (E × ℕ)} {splitIdx idx : ℕ} {e : E × ℕ}
    (hsound : Sound s') (hhalves : Halves layout s s' (level + 1) (.branch (entries.take splitIdx))
      (.branch (entries.drop splitIdx))) (he : entries[idx]? = some e)
    {err : Failure → TreeState E D → Prop} :
    Ends (chooseParent level idx splitIdx) s'
      (fun result s'' => Chosen s' s'' (level + 1) result e) err := by
  rw [chooseParent]
  by_cases hlt : idx < splitIdx
  · rw [if_pos hlt]
    obtain ⟨hchosen, hprev⟩ := chosen_left hhalves he hsound hlt
    refine ends_bind (get_outcome s') (ends_bind hprev (ends_bind (setPath_outcome s' _) ?_))
    rw [TreePath.assign_set]
    exact ends_pure hchosen
  · rw [if_neg hlt]
    exact ends_pure (chosen_right hhalves he (Nat.le_of_not_lt hlt))

/-- The invariant at the half that was chosen. -/
theorem Inv.of_chosen {entries : List (E × ℕ)} {splitIdx idx : ℕ} {e : E × ℕ} {block : Block E D}
    (hexact : Exact layout s level except)
    (hblock : s.store (s.path.nodes level) = some block) (hlevel : block.level = level)
    (hentries : block.entries = entries)
    (hinv : Inv layout s' level (level + 1) fun _ => False)
    (hkeeps : Keeps s s' level fun _ => False)
    (hhalves : Halves layout s s' level (.branch (entries.take splitIdx))
      (.branch (entries.drop splitIdx)))
    (hchosen : Chosen s' s'' level idx e) :
    Inv layout s'' level level except ∧ Keeps s s'' level fun _ => False := by
  obtain ⟨node, half, parent, rfl, hhalf, hhlevel, hhroot, hparent, hnode, -⟩ := hchosen
  have hold (k : ℕ) (hk : k ≠ level) : (s'.path.set level node).nodes k = s'.path.nodes k :=
    Function.update_of_ne hk ..
  have hself : (s'.path.set level node).nodes level = node := Function.update_self ..
  have hspine : Spine { s' with path := s'.path.set level node } level := by
    have hupper := hinv.spine.mono (Nat.le_succ level) hhalves.lt_size
    have hmoved := hupper.withPath (s'.path.set level node) rfl fun k hk => hold k (by omega)
    refine hmoved.below half parent ?_ hhlevel hhroot ?_ ?_
    · exact (congrArg s'.store hself).trans hhalf
    · exact (congrArg s'.store (hold (level + 1) (by omega))).trans hparent
    · exact hself.symm ▸ hnode
  refine ⟨⟨hinv.sound.withPath _, hspine, ?_⟩, ⟨hkeeps.blocks, hkeeps.orphans, ?_, hkeeps.next_le⟩⟩
  · intro id b hb hle e' he' hnot child hchild
    have hbs : s'.store id = some b := hb
    have hcs : s'.store e'.2 = some child := hchild
    rcases Nat.eq_or_lt_of_le hle with heq | hlt
    · obtain ⟨c, hc, hclevel, -⟩ := hinv.sound.child id b hbs e'.2 (Block.mem_children he')
      obtain rfl := Option.some.inj (hcs.symm.trans hc)
      have hcold : s.store e'.2 = some child := (hkeeps.blocks _ _ (by omega)).mp hcs
      rcases hhalves.others id b heq.symm hbs with rfl | rfl | hsame
      · obtain rfl := Option.some.inj (hbs.symm.trans hhalves.left_eq)
        refine hexact _ block hblock hlevel.ge e' ?_ hnot child hcold
        exact hentries ▸ List.mem_of_mem_take he'
      · obtain rfl := Option.some.inj (hbs.symm.trans hhalves.right_eq)
        refine hexact _ block hblock hlevel.ge e' ?_ hnot child hcold
        exact hentries ▸ List.mem_of_mem_drop he'
      · exact hexact id b hsame hle e' he' hnot child hcold
    · exact hinv.entries id b hbs hlt e' he' not_false child hcs
  · intro k hk
    exact (hold k hk.ne).trans (hkeeps.nodes k hk)

structure Inserted (layout : Layout E D) (s s' : TreeState E D) (level right : ℕ)
    (e : E × ℕ) (rightMax : E) : Prop where
  inv : Inv layout s' level (level + 1) fun _ => False
  keeps : Keeps s s' (level + 1) (· = right)
  lt_size : level + 1 < s'.path.size
  beside : ∃ parent i, s'.store (s'.path.nodes (level + 1)) = some parent ∧
    parent.entries[i]? = some e ∧ parent.entries[i + 1]? = some (rightMax, right)
  row : ∃ before behind, s.row level = before ++ e.2 :: behind ∧
    s'.row level = before ++ e.2 :: right :: behind

structure Beside (s : TreeState E D) (level idx right : ℕ) (e : E × ℕ) (parent : Block E D)
    (rightBody : Body E D) : Prop where
  node : ∃ block, s.store (s.path.nodes level) = some block ∧ block.level = level ∧
    block.isRoot = false
  parent_eq : s.store (s.path.nodes (level + 1)) = some parent
  entry : parent.entries[idx]? = some e
  id_eq : e.2 = s.path.nodes level
  right_eq : s.store right = some ⟨level, false, rightBody⟩
  orphan : Orphan s right

variable {idx right : ℕ} {e : E × ℕ} {parent : Block E D} {rightBody : Body E D}

/-- A first attempt that fails for want of room has changed nothing. -/
theorem insertRight_spec (hinsert : InsertSpec layout self.insertToBranchNode)
    (hinv : Inv layout s (level + 1) (level + 1) fun _ => False)
    (hbeside : Beside s level idx right e parent rightBody) :
    Ends (self.insertToBranchNode (level + 1) (idx + 1) (layout.maxKeys rightBody) right) s
      (fun _ s' => Inserted layout s s' level right e (layout.maxKeys rightBody))
      (fun failure s' => failure = .packed → s' = s) := by
  obtain ⟨⟨block, hblock, hlevel, hroot⟩, hparent, he, hid, hright, horphan⟩ := hbeside
  have hlt : idx < parent.entries.length := (List.getElem?_eq_some_iff.mp he).1
  have hcall := hinsert s (level + 1) (idx + 1) right parent ⟨level, false, rightBody⟩ hinv hparent
    hlt hright rfl rfl horphan
  refine hcall.imp ?_ (fun _ _ hfail hpacked => (hfail hpacked).1)
  rintro _ s' ⟨hinv', hkeeps, hnodes, hparent', hrow, hothers⟩
  have hstart : (parent.entries.insertIdx (idx + 1) (layout.maxKeys rightBody, right))[idx]? =
      some e := by
    rw [List.getElem?_insertIdx_of_lt (Nat.lt_succ_self idx), he]
  have hpath : s'.path.nodes level = s.path.nodes level := hkeeps.nodes level (Nat.lt_succ_self _)
  set parent' := parent.withEntries
    (parent.entries.insertIdx (idx + 1) (layout.maxKeys rightBody, right)) with hset
  refine ⟨⟨hinv'.sound, ?_, hinv'.entries⟩, hkeeps, hinv'.spine.lt_size,
    ⟨parent', idx, hnodes.symm ▸ hparent', hstart, ?_⟩, ?_⟩
  · refine hinv'.spine.below block parent' ?_ hlevel hroot (hnodes.symm ▸ hparent') ?_
    · rw [hpath]
      exact (hkeeps.blocks _ block (Nat.lt_succ_of_le hlevel.le)).mpr hblock
    · rw [hpath, ← hid]
      exact Block.mem_children (List.mem_of_getElem? hstart)
  · exact List.getElem?_insertIdx_self.trans (if_pos hlt)
  · obtain ⟨as, bs, hentries, hentries'⟩ :=
      exists_insertIdx_succ (layout.maxKeys rightBody, right) he
    have hmem := node_mem_row hinv.spine le_rfl hinv.spine.lt_size
    obtain ⟨xs, ys, hparents⟩ := List.append_of_mem hmem
    have hnodup := row_nodup hinv.sound hinv.spine hinv.spine.lt_size
    rw [hparents] at hnodup
    have hchildren : s.childrenOf (s.path.nodes (level + 1)) =
        as.map Prod.snd ++ e.2 :: bs.map Prod.snd := by
      rw [TreeState.childrenOf_eq hparent, Block.children, hentries, List.map_append, List.map_cons]
    have hchildren' : s'.childrenOf (s.path.nodes (level + 1)) =
        as.map Prod.snd ++ e.2 :: right :: bs.map Prod.snd := by
      rw [TreeState.childrenOf_eq hparent', Block.children]
      change (parent.entries.insertIdx (idx + 1) _).map Prod.snd = _
      rw [hentries', List.map_append, List.map_cons, List.map_cons]
    refine row_insert hinv.spine.lt_size hinv'.spine.lt_size ?_ hparents hrow hchildren hchildren'
    intro id hid
    refine hothers id ?_ (ne_of_nodup_middle hnodup hid)
    rw [hparents]
    exact (List.sublist_cons_self _ ys).append_left xs |>.subset hid

/-- What is not inserted for lack of room is up to `retry`. -/
theorem insertOr_spec (hinsert : InsertSpec layout self.insertToBranchNode)
    (hinv : Inv layout s (level + 1) (level + 1) fun _ => False)
    (hbeside : Beside s level idx right e parent rightBody) {retry : Op E D Unit}
    (hretry : Ends retry s
      (fun _ s' => Inserted layout s s' level right e (layout.maxKeys rightBody)) NotPacked) :
    Ends (insertOr self (level + 1) (idx + 1) (layout.maxKeys rightBody) right retry) s
      (fun _ s' => Inserted layout s s' level right e (layout.maxKeys rightBody)) NotPacked := by
  refine ends_bind (nodeAt_outcome hinv.spine.lt_size)
    (ends_bind (getBlock_outcome hbeside.parent_eq) ?_)
  refine (insertRight_spec hinsert hinv hbeside).attempt.bind ?_
  rintro (⟨⟨⟩ | ⟨⟩⟩ | ⟨⟩) s₁ houtcome
  · obtain rfl : s₁ = s := houtcome rfl
    have hrollback : s₁.put (s₁.path.nodes (level + 1)) parent = s₁ := by
      rw [TreeState.put, ← hbeside.parent_eq, Function.update_eq_self]
    refine ends_bind (putBlock_outcome s₁ _ _) ?_
    rw [hrollback]
    exact hretry
  · exact ends_throw (notPacked_generic s₁)
  · exact ends_pure houtcome

theorem splitBranch_ok {block : Block E D} (he : e ∈ block.entries) {splitIdx : ℕ}
    {left right : Body E D} (hsplit : splitBranch splitIdx block.body = .ok (left, right)) :
    left = .branch (block.entries.take splitIdx) ∧ right = .branch (block.entries.drop splitIdx) := by
  rw [Block.body_eq he] at hsplit
  obtain ⟨rfl, rfl⟩ := Prod.mk.inj (Except.ok.inj hsplit)
  exact ⟨rfl, rfl⟩

theorem splitBranch_ne_packed (splitIdx : ℕ) (body : Body E D) :
    splitBranch splitIdx body ≠ .error .packed := by
  cases body with
  | leaf data => rintro ⟨⟩
  | branch entries => rintro ⟨⟩

/-- The parent is split, and the right node goes into the half that has the left one. -/
theorem insertIntoHalf_spec (hinsert : InsertSpec layout self.insertToBranchNode)
    (hsplit : SplitSpec layout self.splitNodeRaw)
    (hinv : Inv layout s (level + 1) (level + 1) fun _ => False)
    (hbeside : Beside s level idx right e parent rightBody) :
    Ends (insertIntoHalf self level idx (layout.maxKeys rightBody) right) s
      (fun _ s' => Inserted layout s s' level right e (layout.maxKeys rightBody)) NotPacked := by
  obtain ⟨⟨block, hblock, hlevel, hroot⟩, hparent, he, hid, hright, horphan⟩ := hbeside
  have hmem := List.mem_of_getElem? he
  refine ends_bind (nodeAt_outcome hinv.spine.lt_size) (ends_bind (getBlock_outcome hparent) ?_)
  set splitIdx := parent.entries.length / 2 with hsplitIdx
  have hinv₀ : Inv layout s (level + 1) (level + 2) (· = s.path.nodes (level + 1)) :=
    ⟨hinv.sound, hinv.spine, hinv.entries.mono (Nat.le_succ _) fun _ => False.elim⟩
  have hcall := hsplit s (level + 1) parent (splitBranchNode splitIdx) hinv₀ hparent
  have hcall' := hcall.imp (fun _ _ => id) fun failure _ hfail hpacked =>
    splitBranch_ne_packed splitIdx parent.body (hfail hpacked)
  refine hcall'.bind ?_
  rintro _ s₁ ⟨left, half, hhalf, hinv₁, hkeeps₁, hhalves⟩
  obtain ⟨rfl, rfl⟩ := splitBranch_ok hmem hhalf
  refine (chooseParent_spec hinv₁.sound hhalves he).bind ?_
  rintro newIdx s₂ hchosen
  have hplevel : parent.level = level + 1 := by
    obtain ⟨b, hb, hbl, -⟩ := hinv.spine.at_level
    exact Option.some.inj (hparent.symm.trans hb) ▸ hbl
  obtain ⟨hinv₂, hkeeps₂⟩ :=
    Inv.of_chosen hinv.entries hparent hplevel rfl hinv₁ hkeeps₁ hhalves hchosen
  have hpath₂ : s₂.path.nodes level = s.path.nodes level :=
    hkeeps₂.nodes level (Nat.lt_succ_self _)
  have hbeside₂ : ∃ parent₂, Beside s₂ level newIdx right e parent₂ rightBody := by
    obtain ⟨node, parent₂, grand, rfl, hnode, -, -, -, -, hentry⟩ := hchosen
    refine ⟨parent₂, ⟨block, ?_, hlevel, hroot⟩, ?_, hentry, hid.trans hpath₂.symm, ?_, ?_⟩
    · rw [hpath₂]
      exact (hkeeps₂.blocks _ block (Nat.lt_succ_of_le hlevel.le)).mpr hblock
    · exact (congrArg s₁.store (Function.update_self ..)).trans hnode
    · exact (hkeeps₂.blocks _ _ (Nat.lt_succ_self level)).mpr hright
    · exact hkeeps₂.orphans right _ hright (Nat.lt_succ_self level) not_false horphan
  obtain ⟨parent₂, hbeside₂⟩ := hbeside₂
  have hretry : Ends (throw .generic : Op E D Unit) s₂
      (fun _ s' => Inserted layout s₂ s' level right e (layout.maxKeys rightBody)) NotPacked :=
    ends_throw (notPacked_generic s₂)
  refine (insertOr_spec hinsert hinv₂ hbeside₂ hretry).imp ?_ (fun _ _ => id)
  rintro _ s₃ ⟨hinv₃, hkeeps₃, hsize₃, hbeside₃, hrow₃⟩
  have hrow₁ := hhalves.row_below hinv₀ hinv₁.sound hinv₁.spine hhalf hparent rfl
  have hrow₂ : s₂.row level = s.row level :=
    (hchosen.row hhalves.lt_size (Nat.lt_of_succ_lt hinv₁.spine.lt_size)).trans hrow₁
  exact ⟨hinv₃, hkeeps₂.weaken.trans hkeeps₃, hsize₃, hbeside₃, hrow₂ ▸ hrow₃⟩

theorem insertRightNode_spec (hinsert : InsertSpec layout self.insertToBranchNode)
    (hsplit : SplitSpec layout self.splitNodeRaw)
    (hinv : Inv layout s (level + 1) (level + 1) fun _ => False)
    (hbeside : Beside s level idx right e parent rightBody) :
    Ends (insertRightNode self level idx (layout.maxKeys rightBody) right) s
      (fun _ s' => Inserted layout s s' level right e (layout.maxKeys rightBody)) NotPacked :=
  insertOr_spec hinsert hinv hbeside (insertIntoHalf_spec hinsert hsplit hinv hbeside)

/-- A split of the parent, which the second attempt takes, is one call further down. -/
theorem splitNodeRaw_spec (hroot : RootSpec layout self.createNewRootBlock)
    (hinsert : InsertSpec layout self.insertToBranchNode)
    (hsplit : SplitSpec layout self.splitNodeRaw) (hpath : PathSpec layout self.updatePath) :
    SplitSpec layout (splitNodeRaw layout self) := by
  intro s level block g hinv hblock
  obtain ⟨b, hb, hlevel, -⟩ := hinv.spine.at_level
  obtain rfl := Option.some.inj (hblock.symm.trans hb)
  -- the root gets a parent
  refine (ends_of_notPacked (ensureParent_spec hroot hinv)).bind ?_
  rintro _ s₁ ⟨hinv₁, hlifted⟩
  have hnode₁ : s₁.path.nodes level = s.path.nodes level := hlifted.nodes level le_rfl
  have hblock₁ : s₁.store (s₁.path.nodes level) = some ⟨level, false, block.body⟩ := by
    rw [hnode₁, hlifted.node block hblock, ← hlevel]
  refine ends_bind (nodeAt_outcome hinv₁.spine.lt_size) ?_
  -- the data go to the two nodes
  refine (splitInto_spec hinv₁ hblock₁ g).bind ?_
  rintro ⟨right, rightMax⟩ s₂ ⟨leftBody, rightBody, hhalves, hmax, hdivided⟩
  obtain rfl : rightMax = layout.maxKeys rightBody := hmax
  have hnode₂ : s₂.path.nodes level = s.path.nodes level := by rw [hdivided.path, hnode₁]
  have hinv₂ : Inv layout s₂ level (level + 1) (· = s₂.path.nodes level) := by
    rw [hdivided.path]
    exact hdivided.inv
  -- the entry of the left node is made right
  refine (ends_of_notPacked (hpath s₂ level hinv₂)).bind ?_
  rintro _ s₃ ⟨hinv₃, hkeeps₃, hrow₃⟩
  have hnode₃ : s₃.path.nodes level = s.path.nodes level :=
    (hkeeps₃.nodes level (Nat.lt_succ_self level)).trans hnode₂
  have hleft₃ : s₃.store (s.path.nodes level) = some ⟨level, false, leftBody⟩ := by
    refine (hkeeps₃.blocks _ _ (Nat.lt_succ_self level)).mpr ?_
    rw [← hnode₁]
    exact hdivided.left_eq
  obtain ⟨node, hnode, -, hnotroot⟩ := hinv₃.spine.at_level
  rw [hnode₃, hleft₃] at hnode
  obtain rfl := Option.some.inj hnode
  have hsize₃ : level + 1 < s₃.path.size := by
    have hlt := hinv₃.spine.lt_size
    have hne : level + 1 ≠ s₃.path.size := fun h => Bool.false_ne_true (hnotroot.mpr h)
    omega
  obtain ⟨parent, hparent, -⟩ := hinv₃.spine.link level le_rfl hsize₃
  refine ends_bind (nodeAt_outcome hsize₃) (ends_bind (getBlock_outcome hparent) ?_)
  refine ends_bind (nodeAt_outcome hinv₃.spine.lt_size) ?_
  refine ends_getChildIdx ?_ (by rintro ⟨⟩)
  rintro idx ⟨leftMax, left⟩ he (rfl : left = s₃.path.nodes level)
  -- the right node is inserted behind the left one
  have hright₃ : s₃.store right = some ⟨level, false, rightBody⟩ :=
    (hkeeps₃.blocks _ _ (Nat.lt_succ_self level)).mpr hdivided.right_eq
  have horphan₃ : Orphan s₃ right :=
    hkeeps₃.orphans _ _ hdivided.right_eq (Nat.lt_succ_self level) not_false hdivided.orphan
  have hinv₃' : Inv layout s₃ (level + 1) (level + 1) fun _ => False :=
    ⟨hinv₃.sound, hinv₃.spine.mono (Nat.le_succ level) hsize₃, hinv₃.entries⟩
  have hbeside : Beside s₃ level idx right (leftMax, s₃.path.nodes level) parent rightBody :=
    ⟨⟨_, hnode₃.symm ▸ hleft₃, rfl, rfl⟩, hparent, he, rfl, hright₃, horphan₃⟩
  refine (ends_of_notPacked (insertRightNode_spec hinsert hsplit hinv₃' hbeside)).bind ?_
  rintro _ s₄ ⟨hinv₄, hkeeps₄, hsize₄, ⟨parent₄, i, hparent₄, hi, hi'⟩, hrow₄⟩
  refine ends_bind (get_outcome s₄) ?_
  -- the path goes to the right node
  set path₅ := s₄.path.set level right with hpath₅
  have hold (k : ℕ) (hk : k ≠ level) : path₅.nodes k = s₄.path.nodes k :=
    Function.update_of_ne hk ..
  have hself : path₅.nodes level = right := Function.update_self ..
  have hleft₄ : s₄.store (s.path.nodes level) = some ⟨level, false, leftBody⟩ :=
    (hkeeps₄.blocks _ _ (Nat.lt_succ_self level)).mpr hleft₃
  have hright₄ : s₄.store right = some ⟨level, false, rightBody⟩ :=
    (hkeeps₄.blocks _ _ (Nat.lt_succ_self level)).mpr hright₃
  have hspine : Spine { s₄ with path := path₅ } level := by
    have hupper := hinv₄.spine.mono (Nat.le_succ level) hsize₄
    have hmoved := hupper.withPath path₅ rfl fun k hk => hold k (by omega)
    refine hmoved.below ⟨level, false, rightBody⟩ parent₄ ?_ rfl rfl ?_ ?_
    · exact (congrArg s₄.store hself).trans hright₄
    · exact (congrArg s₄.store (hold (level + 1) (by omega))).trans hparent₄
    · exact hself.symm ▸ Block.mem_children (List.mem_of_getElem? hi')
  have hkeeps₀₂ : Keeps s s₂ level fun _ => False :=
    (hlifted.keeps hblock hlevel).trans (hdivided.keeps hinv₁.sound hblock₁ rfl)
  have hkeeps₀₃ : Keeps s s₃ level fun _ => False := hkeeps₀₂.trans (hkeeps₃.mono (Nat.le_succ level))
  have hkeeps₀₄ : Keeps s s₄ level fun _ => False := by
    refine hkeeps₀₃.trans (hkeeps₄.of_linked (Nat.le_succ level) ?_)
    rintro id b hb hlt rfl
    obtain rfl := Option.some.inj (hb.symm.trans hright₃)
    exact Nat.lt_irrefl level hlt
  have hleftMax : leftMax = layout.maxKeys leftBody := by
    have hlp : parent.level = level + 1 := by
      obtain ⟨p, hp, hpl, -⟩ := hinv₃'.spine.at_level
      exact Option.some.inj (hparent.symm.trans hp) ▸ hpl
    exact hinv₃.entries _ parent hparent hlp.ge _ (List.mem_of_getElem? he) not_false _
      (hnode₃.symm ▸ hleft₃)
  refine ends_of_outcome (setPath_outcome s₄ path₅) ⟨leftBody, rightBody, hhalves,
    ⟨hinv₄.sound.withPath _, hspine, hinv₄.entries⟩, ⟨hkeeps₀₄.blocks, hkeeps₀₄.orphans, ?_,
    hkeeps₀₄.next_le⟩, hleft₄, ?_, ?_, hsize₄, ?_, ?_, ?_⟩
  · exact fun k hk => (hold k hk.ne).trans (hkeeps₀₄.nodes k hk)
  · exact (congrArg s₄.store hself).trans hright₄
  · change s.store (path₅.nodes level) = none
    rw [hself]
    cases hb : s.store right with
    | none => rfl
    | some b =>
        have hlt := hinv.sound.fresh right b hb
        have hle := hlifted.next_le.trans hdivided.next_le.1
        exact absurd hlt (Nat.not_lt_of_le hle)
  · refine ⟨parent₄, i, (congrArg s₄.store (hold (level + 1) (by omega))).trans hparent₄, ?_, ?_⟩
    · rw [hi, hleftMax, hnode₃]
    · exact hi'.trans (congrArg (fun id => some (_, id)) hself.symm)
  · intro id b hbl hb
    by_cases hl : id = s.path.nodes level
    · exact .inl hl
    · by_cases hr : id = right
      · exact .inr (.inl (hr.trans hself.symm))
      · refine .inr (.inr ((hlifted.blocks id b hbl.le hl).mp ?_))
        have hb₂ : s₂.store id = some b := (hkeeps₃.blocks id b (Nat.lt_succ_of_le hbl.le)).mp
          ((hkeeps₄.blocks id b (Nat.lt_succ_of_le hbl.le)).mp hb)
        exact (hdivided.others id (hnode₁.symm ▸ hl) hr).symm.trans hb₂
  · obtain ⟨before, behind, hrow, hrow'⟩ := hrow₄
    have hsame : s₃.row level = s.row level :=
      hrow₃.trans (hdivided.row.trans hlifted.row)
    have hmoved : TreeState.row { s₄ with path := path₅ } level = s₄.row level :=
      row_congr rfl (hold _ (by omega)) (Nat.lt_of_succ_lt hsize₄) fun _ _ _ _ _ => rfl
    refine ⟨before, behind, ?_, ?_⟩
    · rw [← hsame, hrow, hnode₃]
    · rw [hmoved, hrow', hnode₃]
      exact congrArg (fun id => before ++ _ :: id :: behind) hself.symm

def HasChild (s : TreeState E D) (level idx : ℕ) (e : E × ℕ) : Prop :=
  ∃ block, s.store (s.path.nodes level) = some block ∧ block.entries[idx]? = some e

/-- `ctr_update_branch_nodes` makes the entry of a child right, and the path goes to the branch that
has it. -/
def NodesSpec (layout : Layout E D) (f : ℕ → ℕ → E → Op E D (Bool × ℕ)) : Prop :=
  ∀ (s : TreeState E D) (level idx : ℕ) (e : E × ℕ) (child : Block E D),
    Inv layout s level level (· = e.2) → HasChild s level idx e → s.store e.2 = some child →
    Ends (f level idx (layout.maxKeys child.body)) s
      (fun result s' => Inv layout s' level level (fun _ => False) ∧
        Keeps s s' level (fun _ => False) ∧
        HasChild s' level result.2 (layout.maxKeys child.body, e.2) ∧
        ∀ lower, lower + 1 = level → s'.row lower = s.row lower)
      NotPacked

structure Written (layout : Layout E D) (s s' : TreeState E D) (level idx : ℕ) (e : E × ℕ) :
    Prop where
  sound : Sound s'
  spine : Spine s' level
  entries : Exact layout s' level (· = s'.path.nodes level)
  keeps : Keeps s s' level fun _ => False
  hasChild : HasChild s' level idx e
  row : ∀ lower, lower + 1 = level → s'.row lower = s.row lower

theorem updateBranchNode_spec {idx : ℕ} {e : E × ℕ} {child : Block E D}
    (hinv : Inv layout s level level (· = e.2)) (hchild : HasChild s level idx e)
    (hblock : s.store e.2 = some child) {err : Failure → TreeState E D → Prop} :
    Ends (updateBranchNode layout (s.path.nodes level) idx (layout.maxKeys child.body)) s
      (fun success s' => if success then
        Written layout s s' level idx (layout.maxKeys child.body, e.2) else s' = s) err := by
  obtain ⟨block, hnode, he⟩ := hchild
  obtain ⟨b, hb, hlevel, -⟩ := hinv.spine.at_level
  obtain rfl := Option.some.inj (hnode.symm.trans hb)
  refine ends_bind (getBlock_outcome hnode) ?_
  by_cases hroom : layout.roomToUpdate block idx (layout.maxKeys child.body) = true
  · rw [if_pos hroom]
    refine ends_bind (putBlock_outcome s _ _) (ends_pure ?_)
    rw [if_pos rfl]
    set entries := block.entries.modify idx fun e' => (layout.maxKeys child.body, e'.2) with hset
    have hget (j : ℕ) : entries[j]? = (block.entries[j]?).map fun e' =>
        if idx = j then (layout.maxKeys child.body, e'.2) else e' := List.getElem?_modify ..
    have hself : entries[idx]? = some (layout.maxKeys child.body, e.2) := by
      rw [hget, he, Option.map_some, if_pos rfl]
    have hchildren : (block.withEntries entries).children = block.children :=
      block.children_modify idx _
    have hmem : ∀ e' ∈ entries, e' = (layout.maxKeys child.body, e.2) ∨
        e' ∈ block.entries ∧ e'.2 ≠ e.2 := by
      intro e' he'
      obtain ⟨j, hj⟩ := List.getElem?_of_mem he'
      rw [hget] at hj
      obtain ⟨old, hold, hnew⟩ := Option.map_eq_some_iff.mp hj
      by_cases hidx : idx = j
      · subst hidx
        rw [if_pos rfl] at hnew
        obtain rfl := Option.some.inj (hold.symm.trans he)
        exact .inl hnew.symm
      · rw [if_neg hidx] at hnew
        subst hnew
        refine .inr ⟨List.mem_of_getElem? hold, ?_⟩
        intro hsame
        exact hidx (Block.idx_unique (hinv.sound.nodup _ _ hnode) he hold hsame.symm)
    refine ⟨hinv.sound.put hnode rfl (fun h => h) hchildren, hinv.spine.put hnode rfl rfl, ?_, ?_,
      ⟨_, s.put_self _ _, hself⟩, ?_⟩
    · refine hinv.entries.put ?_ ?_
      · intro e' he' hne c hc
        rcases hmem e' he' with rfl | ⟨hold, hother⟩
        · obtain rfl := Option.some.inj (hblock.symm.trans hc)
          rfl
        · exact hinv.entries _ block hnode hlevel.ge e' hold hother c hc
      · rintro id b hb hid c hc rfl
        exact hid (hinv.sound.single id b _ block _ hb hnode hc
          (Block.mem_children (List.mem_of_getElem? he)))
    · exact Keeps.put hnode hlevel.ge hlevel.ge fun id _ hid => hchildren ▸ hid
    · rintro lower rfl
      refine row_congr rfl rfl (Nat.lt_of_succ_lt hinv.spine.lt_size) fun k _ _ id _ => ?_
      by_cases hid : id = s.path.nodes (lower + 1)
      · subst hid
        rw [TreeState.childrenOf_eq (s.put_self _ _), TreeState.childrenOf_eq hnode, hchildren]
      · exact TreeState.childrenOf_congr (TreeState.put_of_ne hid s _)
  · rw [if_neg hroom]
    refine ends_pure ?_
    rw [if_neg Bool.false_ne_true]

/-- The branch is split, and the entry is written in the half that has it. -/
theorem updateInHalf_spec (hsplit : SplitSpec layout self.splitNodeRaw) {idx : ℕ} {e : E × ℕ}
    {child : Block E D} (hinv : Inv layout s level level (· = e.2)) (hchild : HasChild s level idx e)
    (hblock : s.store e.2 = some child) :
    Ends (updateInHalf layout self level idx (layout.maxKeys child.body)) s
      (fun result s' => Written layout s s' level result.2 (layout.maxKeys child.body, e.2))
      NotPacked := by
  obtain ⟨block, hnode, he⟩ := hchild
  obtain ⟨b, hb, hlevel, -⟩ := hinv.spine.at_level
  obtain rfl := Option.some.inj (hnode.symm.trans hb)
  have hmem := List.mem_of_getElem? he
  refine ends_bind (nodeAt_outcome hinv.spine.lt_size) (ends_bind (getBlock_outcome hnode) ?_)
  have hbelow : child.level < level := by
    obtain ⟨c, hc, hcl, -⟩ := hinv.sound.child _ block hnode e.2 (Block.mem_children hmem)
    obtain rfl := Option.some.inj (hblock.symm.trans hc)
    omega
  set splitIdx := block.entries.length / 2 with hsplitIdx
  have hinv₀ : Inv layout s level (level + 1) (· = s.path.nodes level) := by
    refine ⟨hinv.sound, hinv.spine, ?_⟩
    intro id b hb hle e' he' _ c hc
    refine hinv.entries id b hb (Nat.le_of_succ_le hle) e' he' ?_ c hc
    intro hsame
    obtain ⟨d, hd, hdl, -⟩ := hinv.sound.child id b hb e'.2 (Block.mem_children he')
    rw [hsame, hblock] at hd
    obtain rfl := Option.some.inj hd
    omega
  have hcall := (hsplit s level block (splitBranchNode splitIdx) hinv₀ hnode).imp
    (fun _ _ => id) fun failure _ hfail hpacked =>
      splitBranch_ne_packed splitIdx block.body (hfail hpacked)
  refine hcall.bind ?_
  rintro _ s₁ ⟨left, right, hhalves, hinv₁, hkeeps₁, hsides⟩
  have hrow₁ (lower : ℕ) (hlower : lower + 1 = level) : s₁.row lower = s.row lower :=
    hsides.row_below hinv₀ hinv₁.sound hinv₁.spine hhalves hnode hlower
  obtain ⟨rfl, rfl⟩ := splitBranch_ok hmem hhalves
  refine (chooseNode_spec hsides he hinv₁.sound).bind ?_
  rintro ⟨next, newIdx⟩ s₂ hchosen
  obtain ⟨hinv₂, hkeeps₂⟩ :=
    Inv.of_chosen hinv.entries hnode hlevel rfl hinv₁ hkeeps₁ hsides hchosen
  have hchild₂ : HasChild s₂ level newIdx e := by
    obtain ⟨node, half, parent, rfl, hhalf, -, -, -, -, hentry⟩ := hchosen
    exact ⟨half, (congrArg s₁.store (Function.update_self ..)).trans hhalf, hentry⟩
  have hblock₂ : s₂.store e.2 = some child := (hkeeps₂.blocks _ child hbelow).mpr hblock
  refine ends_bind (nodeAt_outcome hinv₂.spine.lt_size) ?_
  refine (updateBranchNode_spec hinv₂ hchild₂ hblock₂).bind ?_
  rintro (_ | _) s₃ hwritten
  · exact ends_throw (notPacked_generic s₃)
  · rw [if_pos rfl] at hwritten
    have hrow (lower : ℕ) (hlower : lower + 1 = level) : s₃.row lower = s.row lower := by
      have hlt : lower < s₁.path.size := by
        have hsize := hinv₁.spine.lt_size
        omega
      exact (hwritten.row lower hlower).trans
        ((hchosen.row hsides.lt_size hlt).trans (hrow₁ lower hlower))
    exact ends_pure ⟨hwritten.sound, hwritten.spine, hwritten.entries,
      hkeeps₂.trans hwritten.keeps, hwritten.hasChild, hrow⟩

/-- The entry is made right in the branch or in a half of it, and then the path above is updated. -/
theorem updateBranchNodes_spec (hsplit : SplitSpec layout self.splitNodeRaw)
    (hpath : PathSpec layout self.updatePath) :
    NodesSpec layout (updateBranchNodes layout self) := by
  intro s level idx e child hinv hchild hblock
  have hupdate : Ends (updateEntry layout self level idx (layout.maxKeys child.body)) s
      (fun result s' => Written layout s s' level result.2 (layout.maxKeys child.body, e.2))
      NotPacked := by
    refine ends_bind (nodeAt_outcome hinv.spine.lt_size) ?_
    refine (updateBranchNode_spec hinv hchild hblock).bind ?_
    rintro (_ | _) s₁ hwritten
    · rw [if_neg Bool.false_ne_true] at hwritten ⊢
      rw [hwritten]
      exact updateInHalf_spec hsplit hinv hchild hblock
    · rw [if_pos rfl] at hwritten ⊢
      exact ends_pure hwritten
  refine hupdate.bind ?_
  rintro result s₁ ⟨hsound, hspine, hexact, hkeeps, ⟨block, hnode, hentry⟩, hrow⟩
  obtain ⟨b, hb, hlevel, -⟩ := hspine.at_level
  obtain rfl := Option.some.inj (hnode.symm.trans hb)
  refine (hpath.raise hsound hspine hexact).bind ?_
  rintro _ s₂ ⟨hinv₂, -, hkeeps₂, hrow₂⟩
  refine ends_pure ⟨hinv₂, hkeeps.trans (hkeeps₂.mono (Nat.le_succ level)), ⟨block, ?_, hentry⟩, ?_⟩
  · rw [hkeeps₂.nodes level (Nat.lt_succ_self level)]
    exact (hkeeps₂.blocks _ block (Nat.lt_succ_of_le hlevel.le)).mpr hnode
  · intro lower hlower
    refine (row_lower hsound hspine hkeeps₂ hrow₂ hspine.lt_size hinv₂.spine.lt_size ?_).trans
      (hrow lower hlower)
    omega

/-- The entry of the node is made right, level by level up to the root. -/
theorem updatePath_spec (hnodes : NodesSpec layout self.updateBranchNodes) :
    PathSpec layout (updatePath layout self) := by
  intro s level hinv
  obtain ⟨block, hblock, hlevel, hroot⟩ := hinv.spine.at_level
  refine ends_bind (nodeAt_outcome hinv.spine.lt_size) (ends_bind (getBlock_outcome hblock) ?_)
  by_cases hisroot : block.isRoot = true
  · rw [if_pos hisroot]
    have horphan := hinv.sound.orphan_of_isRoot hblock hisroot
    refine ends_pure ⟨⟨hinv.sound, hinv.spine, ?_⟩, ⟨fun _ _ _ => Iff.rfl, fun _ _ _ _ _ => id,
      fun _ _ => rfl, le_rfl⟩, rfl⟩
    intro id b hb hle e he _ c hc
    refine hinv.entries id b hb hle e he ?_ c hc
    intro hsame
    exact horphan id b hb (hsame ▸ Block.mem_children he)
  · rw [if_neg hisroot]
    have hsize : level + 1 < s.path.size := by
      have hlt := hinv.spine.lt_size
      have hne : level + 1 ≠ s.path.size := fun h => hisroot (hroot.mpr h)
      omega
    obtain ⟨parent, hparent, -⟩ := hinv.spine.link level le_rfl hsize
    refine ends_checkPath ?_ (notPacked_generic s)
    refine ends_bind (nodeAt_outcome hinv.spine.lt_size) (ends_bind (nodeAt_outcome hsize) ?_)
    refine ends_bind (getBlock_outcome hparent) ?_
    refine ends_getChildIdx ?_ (notPacked_generic s)
    rintro idx ⟨old, id⟩ he (rfl : id = s.path.nodes level)
    have hinv' : Inv layout s (level + 1) (level + 1) (· = s.path.nodes level) :=
      ⟨hinv.sound, hinv.spine.mono (Nat.le_succ level) hsize, hinv.entries⟩
    refine (hnodes s (level + 1) idx (old, s.path.nodes level) block hinv' ⟨parent, hparent, he⟩
      hblock).bind ?_
    rintro ⟨next, newIdx⟩ s₁ ⟨hinv₁, hkeeps, ⟨parent₁, hparent₁, hentry⟩, hrow⟩
    have hnode₁ : s₁.path.nodes level = s.path.nodes level :=
      hkeeps.nodes level (Nat.lt_succ_self level)
    have hmem : s₁.path.nodes level ∈ parent₁.children :=
      hnode₁ ▸ Block.mem_children (List.mem_of_getElem? hentry)
    have hspine : Spine s₁ level := by
      refine hinv₁.spine.below block parent₁ ?_ hlevel ?_ hparent₁ hmem
      · rw [hnode₁]
        exact (hkeeps.blocks _ block (Nat.lt_succ_of_le hlevel.le)).mpr hblock
      · exact Bool.eq_false_of_not_eq_true hisroot
    obtain ⟨found, hfound⟩ := Block.exists_findChildIdx hmem
    refine ends_bind (nodeAt_outcome hspine.lt_size) ?_
    refine ends_bind (nodeAt_outcome hinv₁.spine.lt_size) (ends_bind (getBlock_outcome hparent₁) ?_)
    rw [hfound]
    exact ends_pure ⟨⟨hinv₁.sound, hspine, hinv₁.entries⟩, hkeeps, hrow level rfl⟩

/-- What all the functions do, by induction on the calls inside each other. -/
theorem functions_spec (layout : Layout E D) (fuel : ℕ) :
    InsertSpec layout (functions layout fuel).insertToBranchNode ∧
      RootSpec layout (functions layout fuel).createNewRootBlock ∧
      SplitSpec layout (functions layout fuel).splitNodeRaw ∧
      NodesSpec layout (functions layout fuel).updateBranchNodes ∧
      PathSpec layout (functions layout fuel).updatePath := by
  induction fuel with
  | zero =>
      refine ⟨?_, ?_, ?_, ?_, ?_⟩
      · exact fun _ _ _ _ _ _ _ _ _ _ _ _ _ => ends_hang
      · exact fun _ _ _ _ => ends_hang
      · exact fun _ _ _ _ _ _ => ends_hang
      · exact fun _ _ _ _ _ _ _ _ => ends_hang
      · exact fun _ _ _ => ends_hang
  | succ fuel ih =>
      obtain ⟨hinsert, hroot, hsplit, hnodes, hpath⟩ := ih
      exact ⟨insertToBranchNode_spec hpath, createNewRootBlock_spec hinsert,
        splitNodeRaw_spec hroot hinsert hsplit hpath, updateBranchNodes_spec hsplit hpath,
        updatePath_spec hnodes⟩

end Memoria.TreeUpdate

import Mathlib.Algebra.Ring.Nat
import Mathlib.Data.List.Basic
import Mathlib.Data.List.Nodup
import Mathlib.Logic.Function.Basic
import Mathlib.Order.Lattice
import Mathlib.Tactic.ByContra
import Mathlib.Tactic.Set
import Memoria.TreeUpdate

/-!
# Trees under a path

What one change of a block does to the tree: which blocks, paths and entries stay as they are. The
functions change the tree from a level upwards, so that everything is said about the blocks below a
level.
-/

namespace Memoria.TreeUpdate

open Lib Prog

variable {E D : Type} {s s' s'' : TreeState E D} {layout : Layout E D} {level : ℕ}
  {linked except except' : ℕ → Prop}

theorem TreeState.put_self (s : TreeState E D) (id : ℕ) (block : Block E D) :
    (s.put id block).store id = some block := Function.update_self ..

theorem TreeState.put_of_ne {id id' : ℕ} (hne : id' ≠ id) (s : TreeState E D)
    (block : Block E D) : (s.put id block).store id' = s.store id' := Function.update_of_ne hne ..

/-- The blocks after a change of one of them. -/
theorem TreeState.put_cases {id id' : ℕ} {block block' : Block E D}
    (hblock : (s.put id block).store id' = some block') :
    id' = id ∧ block' = block ∨ id' ≠ id ∧ s.store id' = some block' := by
  by_cases hne : id' = id
  · subst hne
    rw [s.put_self] at hblock
    exact .inl ⟨rfl, (Option.some.inj hblock).symm⟩
  · rw [TreeState.put_of_ne hne] at hblock
    exact .inr ⟨hne, hblock⟩

/-- The keys of entries are not read. -/
theorem Block.children_modify (block : Block E D) (idx : ℕ) (entry : E) :
    (block.withEntries (block.entries.modify idx fun e => (entry, e.2))).children =
      block.children := by
  apply List.ext_getElem?
  intro j
  change ((block.entries.modify idx fun e => (entry, e.2)).map Prod.snd)[j]? =
    (block.entries.map Prod.snd)[j]?
  rw [List.getElem?_map, List.getElem?_map, List.getElem?_modify, Option.map_eq_map,
    Option.map_map]
  congr 1
  funext e
  exact apply_ite Prod.snd .. |>.trans (ite_self _)

theorem Block.mem_children {block : Block E D} {e : E × ℕ} (he : e ∈ block.entries) :
    e.2 ∈ block.children := List.mem_map_of_mem he

theorem Block.exists_entry {block : Block E D} {id : ℕ} (hid : id ∈ block.children) :
    ∃ e ∈ block.entries, e.2 = id := List.mem_map.mp hid

/-- Only a branch has entries. -/
theorem Block.body_eq {block : Block E D} {e : E × ℕ} (he : e ∈ block.entries) :
    block.body = .branch block.entries := by
  obtain ⟨level, isRoot, body⟩ := block
  cases body with
  | leaf data => exact absurd he List.not_mem_nil
  | branch entries => rfl

theorem Block.findChildIdx_some {block : Block E D} {id idx : ℕ}
    (hidx : block.findChildIdx id = some idx) : ∃ e, block.entries[idx]? = some e ∧ e.2 = id := by
  obtain ⟨hlt, hid, -⟩ := List.findIdx?_eq_some_iff_getElem.mp hidx
  exact ⟨block.entries[idx], List.getElem?_eq_getElem hlt, of_decide_eq_true hid⟩

theorem Block.exists_findChildIdx {block : Block E D} {id : ℕ} (hid : id ∈ block.children) :
    ∃ idx, block.findChildIdx id = some idx := by
  obtain ⟨e, he, rfl⟩ := Block.exists_entry hid
  refine Option.isSome_iff_exists.mp (List.findIdx?_isSome.trans ?_)
  exact List.any_eq_true.mpr ⟨e, he, decide_eq_true rfl⟩

/-- An entry stands at one index. -/
theorem Block.idx_unique {block : Block E D} (hnodup : block.children.Nodup) {i j : ℕ}
    {e e' : E × ℕ} (hi : block.entries[i]? = some e) (hj : block.entries[j]? = some e')
    (hid : e.2 = e'.2) : i = j := by
  have hci : block.children[i]? = some e.2 := by
    rw [Block.children, List.getElem?_map, hi]
    rfl
  have hcj : block.children[j]? = some e.2 := by
    rw [Block.children, List.getElem?_map, hj, hid]
    rfl
  have hlt := (List.getElem?_eq_some_iff.mp hci).1
  exact (List.getElem?_inj hlt hnodup).mp (hci.trans hcj.symm)

section Outcomes

theorem getBlock_outcome {id : ℕ} {block : Block E D} (hblock : s.store id = some block) :
    (getBlock id : Op E D _).outcome s = some (.ok block, s) := by
  rw [getBlock, Prog.of_outcome, hblock]

theorem putBlock_outcome (s : TreeState E D) (id : ℕ) (block : Block E D) :
    (putBlock id block).outcome s = some (.ok (), s.put id block) := rfl

theorem get_outcome (s : TreeState E D) :
    (get : Op E D (TreeState E D)).outcome s = some (.ok s, s) := rfl

theorem setPath_outcome (s : TreeState E D) (path : TreePath) :
    (setPath path : Op E D Unit).outcome s = some (.ok (), { s with path := path }) := rfl

theorem pathNode_outcome (s : TreeState E D) {path : TreePath} {level : ℕ}
    (hlevel : level < path.size) :
    (pathNode path level : Op E D ℕ).outcome s = some (.ok (path.nodes level), s) := by
  rw [pathNode, if_pos hlevel]
  rfl

theorem nodeAt_outcome {level : ℕ} (hlevel : level < s.path.size) :
    (nodeAt level : Op E D ℕ).outcome s = some (.ok (s.path.nodes level), s) :=
  pathNode_outcome s hlevel

theorem createNode_outcome (s : TreeState E D) (level : ℕ) (isRoot : Bool) (body : Body E D) :
    (createNode level isRoot body).outcome s =
      some (.ok s.next, { s.put s.next ⟨level, isRoot, body⟩ with next := s.next + 1 }) := rfl

end Outcomes

section Triples

variable {β : Type} {ok : β → TreeState E D → Prop} {err : Failure → TreeState E D → Prop}

theorem ends_getChildIdx {block : Block E D} {id : ℕ} {f : ℕ → Op E D β}
    (hok : ∀ idx e, block.entries[idx]? = some e → e.2 = id → Ends (f idx) s ok err)
    (herr : err .generic s) : Ends (getChildIdx block id >>= f) s ok err := by
  rw [getChildIdx]
  cases hidx : block.findChildIdx id with
  | some idx =>
      obtain ⟨e, he, hid⟩ := Block.findChildIdx_some hidx
      exact ends_bind rfl (hok idx e he hid)
  | none => exact ends_of_outcome (r := .error .generic) rfl herr

theorem ends_getBlock {id : ℕ} {f : Block E D → Op E D β}
    (hok : ∀ block, s.store id = some block → Ends (f block) s ok err) (herr : err .generic s) :
    Ends (getBlock id >>= f) s ok err := by
  cases hblock : s.store id with
  | some block => exact ends_bind (getBlock_outcome hblock) (hok block hblock)
  | none =>
      have hfails : (getBlock id : Op E D _).outcome s = some (.error .generic, s) := by
        rw [getBlock, Prog.of_outcome, hblock]
      have hends : Ends (getBlock id : Op E D _) s (fun _ _ => False) err :=
        ends_of_outcome hfails herr
      exact hends.bind fun _ _ => False.elim

theorem ends_pathNode {path : TreePath} {level : ℕ} {f : ℕ → Op E D β}
    (hok : level < path.size → Ends (f (path.nodes level)) s ok err) :
    Ends (pathNode path level >>= f) s ok err := by
  by_cases hlevel : level < path.size
  · exact ends_bind (pathNode_outcome s hlevel) (hok hlevel)
  · rw [pathNode, if_neg hlevel]
    have hends : Ends (Prog.hang : Op E D ℕ) s (fun _ _ => False) err := ends_hang
    exact hends.bind fun _ _ => False.elim

theorem ends_checkLevels (path : TreePath) (count level : ℕ) (herr : err .generic s) :
    Ends (checkLevels path count level) s (fun _ s' => s = s') err := by
  induction count generalizing level with
  | zero => exact ends_pure rfl
  | succ count ih =>
      refine ends_pathNode fun _ => ends_pathNode fun _ => ?_
      refine ends_getBlock (fun block _ => ?_) herr
      exact ends_getChildIdx (fun _ _ _ _ => ih (level + 1)) herr

theorem ends_checkPath {level : ℕ} {f : Unit → Op E D β} (hok : Ends (f ()) s ok err)
    (herr : err .generic s) : Ends (checkPath level >>= f) s ok err := by
  have hends : Ends (checkPath level : Op E D Unit) s (fun _ s' => s = s') err :=
    ends_bind (get_outcome s) (ends_checkLevels _ _ _ herr)
  refine hends.bind ?_
  rintro _ _ rfl
  exact hok

end Triples

structure Keeps (s s' : TreeState E D) (level : ℕ) (linked : ℕ → Prop) : Prop where
  blocks : ∀ id block, block.level < level →
    (s'.store id = some block ↔ s.store id = some block)
  orphans : ∀ id block, s.store id = some block → block.level < level → ¬ linked id →
    Orphan s id → Orphan s' id
  nodes : ∀ k < level, s'.path.nodes k = s.path.nodes k
  next_le : s.next ≤ s'.next

theorem Keeps.trans (hfirst : Keeps s s' level linked) (hsecond : Keeps s' s'' level linked) :
    Keeps s s'' level linked := by
  refine ⟨?_, ?_, ?_, hfirst.next_le.trans hsecond.next_le⟩
  · intro id block hlt
    exact (hsecond.blocks id block hlt).trans (hfirst.blocks id block hlt)
  · intro id block hblock hlt hlinked horphan
    have hmiddle := hfirst.orphans id block hblock hlt hlinked horphan
    exact hsecond.orphans id block ((hfirst.blocks id block hlt).mpr hblock) hlt hlinked hmiddle
  · intro k hk
    exact (hsecond.nodes k hk).trans (hfirst.nodes k hk)

theorem Keeps.weaken (hkeeps : Keeps s s' level fun _ => False) : Keeps s s' level linked :=
  ⟨hkeeps.blocks, fun id block hblock hlt _ => hkeeps.orphans id block hblock hlt not_false,
    hkeeps.nodes, hkeeps.next_le⟩

theorem Keeps.mono (hkeeps : Keeps s s' level linked) {lower : ℕ} (hle : lower ≤ level) :
    Keeps s s' lower linked :=
  ⟨fun id block hlt => hkeeps.blocks id block (hlt.trans_le hle),
    fun id block hblock hlt => hkeeps.orphans id block hblock (hlt.trans_le hle),
    fun k hk => hkeeps.nodes k (hk.trans_le hle), hkeeps.next_le⟩

theorem Keeps.of_linked (hkeeps : Keeps s s' level linked) {lower : ℕ} (hle : lower ≤ level)
    (hlinked : ∀ id block, s.store id = some block → block.level < lower → ¬ linked id) :
    Keeps s s' lower fun _ => False := by
  refine ⟨(hkeeps.mono hle).blocks, ?_, (hkeeps.mono hle).nodes, hkeeps.next_le⟩
  intro id block hblock hlt _
  exact hkeeps.orphans id block hblock (hlt.trans_le hle) (hlinked id block hblock hlt)

theorem Spine.at_level (hspine : Spine s level) : ∃ block,
    s.store (s.path.nodes level) = some block ∧ block.level = level ∧
      (block.isRoot = true ↔ level + 1 = s.path.size) :=
  hspine.node level le_rfl hspine.lt_size

theorem Spine.mono (hspine : Spine s level) {upper : ℕ} (hle : level ≤ upper)
    (hlt : upper < s.path.size) : Spine s upper :=
  ⟨hlt, fun k hk => hspine.node k (hle.trans hk), fun k hk => hspine.link k (hle.trans hk)⟩

theorem Spine.withPath (hspine : Spine s level) (path : TreePath) (hsize : path.size = s.path.size)
    (hnodes : ∀ k, level ≤ k → path.nodes k = s.path.nodes k) :
    Spine { s with path := path } level := by
  refine ⟨hsize ▸ hspine.lt_size, ?_, ?_⟩
  · intro k hk hlt
    obtain ⟨block, hblock, hlevel, hroot⟩ := hspine.node k hk (hsize ▸ hlt)
    exact ⟨block, (congrArg s.store (hnodes k hk)).trans hblock, hlevel, hsize ▸ hroot⟩
  · intro k hk hlt
    obtain ⟨block, hblock, hchild⟩ := hspine.link k hk (hsize ▸ hlt)
    refine ⟨block, (congrArg s.store (hnodes (k + 1) (by omega))).trans hblock, ?_⟩
    exact (hnodes k hk).symm ▸ hchild

/-- One more level below. -/
theorem Spine.below (hspine : Spine s (level + 1)) (block parent : Block E D)
    (hblock : s.store (s.path.nodes level) = some block) (hlevel : block.level = level)
    (hroot : block.isRoot = false) (hparent : s.store (s.path.nodes (level + 1)) = some parent)
    (hchild : s.path.nodes level ∈ parent.children) : Spine s level := by
  have hlt := hspine.lt_size
  refine ⟨by omega, ?_, ?_⟩
  · intro k hk hsize
    rcases Nat.eq_or_lt_of_le hk with rfl | hmore
    · refine ⟨block, hblock, hlevel, ?_⟩
      rw [hroot]
      exact iff_of_false Bool.false_ne_true (by omega)
    · exact hspine.node k hmore hsize
  · intro k hk hsize
    rcases Nat.eq_or_lt_of_le hk with rfl | hmore
    · exact ⟨parent, hparent, hchild⟩
    · exact hspine.link k hmore hsize

/-- A path whose lower nodes stay as they are. -/
theorem Spine.of_keeps (hspine' : Spine s' level) (hkeeps : Keeps s s' (level + 1) linked)
    (hsize : level < s.path.size) {lower : ℕ} (hle : lower ≤ level) (hspine : Spine s lower) :
    Spine s' lower := by
  induction hd : level - lower generalizing lower with
  | zero =>
      obtain rfl : lower = level := by omega
      exact hspine'
  | succ d ih =>
      have hupper : Spine s' (lower + 1) :=
        ih (by omega) (hspine.mono (Nat.le_succ lower) (by omega)) (by omega)
      obtain ⟨block, hblock, hlevel, hroot⟩ := hspine.at_level
      obtain ⟨parent, hparent, hchild⟩ := hspine.link lower le_rfl (by omega)
      obtain ⟨parent', hparent', hplevel, -⟩ := hspine.node (lower + 1) (by omega) (by omega)
      obtain rfl := Option.some.inj (hparent.symm.trans hparent')
      have hnotroot : block.isRoot = false := by
        rw [← Bool.not_eq_true, hroot]
        omega
      have hnode := hkeeps.nodes lower (by omega)
      refine hupper.below block parent ?_ hlevel hnotroot ?_ ?_
      · rw [hnode]
        exact (hkeeps.blocks _ _ (by omega)).mpr hblock
      · rw [hkeeps.nodes (lower + 1) (by omega)]
        exact (hkeeps.blocks _ _ (by omega)).mpr hparent
      · rw [hnode]
        exact hchild

/-- A path that has just got a root. -/
theorem Spine.of_root (hpath : s'.path.size = level + 2) {block : Block E D}
    (hblock : s'.store (s'.path.nodes (level + 1)) = some block) (hlevel : block.level = level + 1)
    (hroot : block.isRoot = true) : Spine s' (level + 1) := by
  refine ⟨by omega, ?_, ?_⟩
  · intro k hk hlt
    obtain rfl : k = level + 1 := by omega
    exact ⟨block, hblock, hlevel, iff_of_true hroot hpath.symm⟩
  · intro k hk hlt
    omega

/-- A change of blocks on which the path does not depend. -/
theorem Spine.of_blocks (hspine : Spine s level) (hpath : s'.path = s.path)
    (hblocks : ∀ k block, level ≤ k → k < s.path.size →
      s.store (s.path.nodes k) = some block → ∃ block',
      s'.store (s.path.nodes k) = some block' ∧ block'.level = block.level ∧
        block'.isRoot = block.isRoot ∧ (level < k → block.children ⊆ block'.children)) :
    Spine s' level := by
  refine ⟨hpath ▸ hspine.lt_size, ?_, ?_⟩
  · intro k hk hsize
    rw [hpath] at hsize ⊢
    obtain ⟨block, hblock, hlevel, hroot⟩ := hspine.node k hk hsize
    obtain ⟨block', hblock', hlevel', hroot', -⟩ := hblocks k block hk hsize hblock
    exact ⟨block', hblock', hlevel'.trans hlevel, hroot' ▸ hroot⟩
  · intro k hk hsize
    rw [hpath] at hsize ⊢
    obtain ⟨block, hblock, hchild⟩ := hspine.link k hk hsize
    obtain ⟨block', hblock', -, -, hchildren⟩ := hblocks (k + 1) block (by omega) hsize hblock
    exact ⟨block', hblock', hchildren (by omega) hchild⟩

theorem Sound.orphan_of_isRoot (hsound : Sound s) {id : ℕ} {block : Block E D}
    (hblock : s.store id = some block) (hroot : block.isRoot = true) : Orphan s id := by
  intro node parent hparent hid
  obtain ⟨child, hchild, -, hnot⟩ := hsound.child node parent hparent id hid
  obtain rfl := Option.some.inj (hchild.symm.trans hblock)
  exact Bool.false_ne_true (hnot.symm.trans hroot)

theorem Sound.orphan_of_fresh (hsound : Sound s) {id : ℕ} (hid : s.store id = none) :
    Orphan s id := by
  intro node parent hparent hmem
  obtain ⟨child, hchild, -⟩ := hsound.child node parent hparent id hmem
  exact Option.some_ne_none child (hchild.symm.trans hid)

theorem Sound.ne_next (hsound : Sound s) {id : ℕ} {block : Block E D}
    (hblock : s.store id = some block) : id ≠ s.next := (hsound.fresh id block hblock).ne

theorem Sound.next_fresh (hsound : Sound s) : s.store s.next = none := by
  cases hblock : s.store s.next with
  | none => rfl
  | some block => exact absurd (hsound.fresh _ _ hblock) (Nat.lt_irrefl _)

theorem Sound.withPath (hsound : Sound s) (path : TreePath) : Sound { s with path := path } :=
  ⟨hsound.fresh, hsound.child, hsound.nodup, hsound.single⟩

/-- One block is changed: its level and its children are the same, and it does not become a root. -/
theorem Sound.put (hsound : Sound s) {id : ℕ} {block block' : Block E D}
    (hblock : s.store id = some block) (hlevel : block'.level = block.level)
    (hroot : block.isRoot = false → block'.isRoot = false)
    (hchildren : block'.children = block.children) : Sound (s.put id block') := by
  have hold (node : ℕ) (b : Block E D) (hb : (s.put id block').store node = some b) :
      ∃ b₀, s.store node = some b₀ ∧ b.level = b₀.level ∧ b.children = b₀.children := by
    rcases TreeState.put_cases hb with ⟨rfl, rfl⟩ | ⟨-, hb⟩
    · exact ⟨block, hblock, hlevel, hchildren⟩
    · exact ⟨b, hb, rfl, rfl⟩
  refine ⟨?_, ?_, ?_, ?_⟩
  · intro node b hb
    obtain ⟨b₀, hb₀, -⟩ := hold node b hb
    exact hsound.fresh node b₀ hb₀
  · intro node b hb c hc
    obtain ⟨b₀, hb₀, hl, hch⟩ := hold node b hb
    rw [hch] at hc
    obtain ⟨child, hchild, hclevel, hcroot⟩ := hsound.child node b₀ hb₀ c hc
    by_cases hne : c = id
    · subst hne
      obtain rfl := Option.some.inj (hchild.symm.trans hblock)
      exact ⟨block', s.put_self c block', by omega, hroot hcroot⟩
    · exact ⟨child, (TreeState.put_of_ne hne s block').trans hchild, by omega, hcroot⟩
  · intro node b hb
    obtain ⟨b₀, hb₀, -, hch⟩ := hold node b hb
    rw [hch]
    exact hsound.nodup node b₀ hb₀
  · intro a m b n c ha hb hm hn
    obtain ⟨m₀, hm₀, -, hmch⟩ := hold a m ha
    obtain ⟨n₀, hn₀, -, hnch⟩ := hold b n hb
    exact hsound.single a m₀ b n₀ c hm₀ hn₀ (hmch ▸ hm) (hnch ▸ hn)

/-- An entry is put into a branch for a block that has no parent. -/
theorem Sound.insert (hsound : Sound s) {id c idx : ℕ} {block child : Block E D} {entry : E}
    (hblock : s.store id = some block) (hchild : s.store c = some child)
    (hlevel : child.level + 1 = block.level) (hroot : child.isRoot = false) (horphan : Orphan s c)
    (hidx : idx ≤ block.entries.length) :
    Sound (s.put id (block.withEntries (block.entries.insertIdx idx (entry, c)))) := by
  set block' := block.withEntries (block.entries.insertIdx idx (entry, c)) with hblock'
  have hperm : block'.children.Perm (c :: block.children) :=
    (List.perm_insertIdx (entry, c) block.entries hidx).map Prod.snd
  have hold (node : ℕ) (b : Block E D) (hb : (s.put id block').store node = some b) :
      ∃ b₀, s.store node = some b₀ ∧ b.level = b₀.level ∧ b.isRoot = b₀.isRoot ∧
        (b.children = b₀.children ∨ node = id ∧ b.children.Perm (c :: b₀.children)) := by
    rcases TreeState.put_cases hb with ⟨rfl, rfl⟩ | ⟨-, hb⟩
    · exact ⟨block, hblock, rfl, rfl, .inr ⟨rfl, hperm⟩⟩
    · exact ⟨b, hb, rfl, rfl, .inl rfl⟩
  have hmem {node : ℕ} {b b₀ : Block E D} {d : ℕ}
      (hch : b.children = b₀.children ∨ node = id ∧ b.children.Perm (c :: b₀.children))
      (hd : d ∈ b.children) : d ∈ b₀.children ∨ node = id ∧ d = c := by
    rcases hch with heq | ⟨rfl, hp⟩
    · exact .inl (heq ▸ hd)
    · rcases List.mem_cons.mp (hp.mem_iff.mp hd) with rfl | hmem
      · exact .inr ⟨rfl, rfl⟩
      · exact .inl hmem
  have hkept (d : ℕ) (b₀ : Block E D) (hb₀ : s.store d = some b₀) :
      ∃ b, (s.put id block').store d = some b ∧ b.level = b₀.level ∧ b.isRoot = b₀.isRoot := by
    by_cases hne : d = id
    · subst hne
      obtain rfl := Option.some.inj (hb₀.symm.trans hblock)
      exact ⟨block', s.put_self d block', rfl, rfl⟩
    · exact ⟨b₀, (TreeState.put_of_ne hne s block').trans hb₀, rfl, rfl⟩
  refine ⟨?_, ?_, ?_, ?_⟩
  · intro node b hb
    obtain ⟨b₀, hb₀, -⟩ := hold node b hb
    exact hsound.fresh node b₀ hb₀
  · intro node b hb d hd
    obtain ⟨b₀, hb₀, hl, -, hch⟩ := hold node b hb
    have hdchild : ∃ b₁, s.store d = some b₁ ∧ b₁.level + 1 = b₀.level ∧ b₁.isRoot = false := by
      rcases hmem hch hd with hin | ⟨rfl, rfl⟩
      · exact hsound.child node b₀ hb₀ d hin
      · obtain rfl := Option.some.inj (hb₀.symm.trans hblock)
        exact ⟨child, hchild, hlevel, hroot⟩
    obtain ⟨b₁, hb₁, hl₁, hr₁⟩ := hdchild
    obtain ⟨b₂, hb₂, hl₂, hr₂⟩ := hkept d b₁ hb₁
    exact ⟨b₂, hb₂, by omega, hr₂.trans hr₁⟩
  · intro node b hb
    obtain ⟨b₀, hb₀, -, -, heq | ⟨-, hp⟩⟩ := hold node b hb
    · exact heq ▸ hsound.nodup node b₀ hb₀
    · exact hp.nodup_iff.mpr (List.nodup_cons.mpr
        ⟨horphan node b₀ hb₀, hsound.nodup node b₀ hb₀⟩)
  · intro a m b n d ha hb hm hn
    obtain ⟨m₀, hm₀, -, -, hmch⟩ := hold a m ha
    obtain ⟨n₀, hn₀, -, -, hnch⟩ := hold b n hb
    rcases hmem hmch hm with hmin | ⟨ha', hd⟩
    · rcases hmem hnch hn with hnin | ⟨-, rfl⟩
      · exact hsound.single a m₀ b n₀ d hm₀ hn₀ hmin hnin
      · exact absurd hmin (horphan a m₀ hm₀)
    · rcases hmem hnch hn with hnin | ⟨hb', -⟩
      · exact absurd (hd ▸ hnin) (horphan b n₀ hn₀)
      · exact ha'.trans hb'.symm

/-- A new block without entries. -/
theorem Sound.create (hsound : Sound s) {block : Block E D} (hempty : block.entries = []) :
    Sound { s.put s.next block with next := s.next + 1 } := by
  have hnone : block.children = [] := by rw [Block.children, hempty, List.map_nil]
  have hold (node c : ℕ) (b : Block E D) (hb : (s.put s.next block).store node = some b)
      (hc : c ∈ b.children) : s.store node = some b := by
    rcases TreeState.put_cases hb with ⟨-, rfl⟩ | ⟨-, hb⟩
    · rw [hnone] at hc
      exact absurd hc List.not_mem_nil
    · exact hb
  refine ⟨?_, ?_, ?_, ?_⟩
  · intro node b hb
    rcases TreeState.put_cases hb with ⟨rfl, -⟩ | ⟨-, hb⟩
    · exact Nat.lt_succ_self _
    · exact Nat.lt_succ_of_lt (hsound.fresh node b hb)
  · intro node b hb c hc
    obtain ⟨child, hchild, hlevel, hroot⟩ := hsound.child node b (hold node c b hb hc) c hc
    exact ⟨child, (TreeState.put_of_ne (hsound.ne_next hchild) s block).trans hchild, hlevel, hroot⟩
  · intro node b hb
    rcases TreeState.put_cases hb with ⟨-, rfl⟩ | ⟨-, hb⟩
    · exact hnone ▸ List.nodup_nil
    · exact hsound.nodup node b hb
  · intro a m b n c ha hb hm hn
    exact hsound.single a m b n c (hold a c m ha hm) (hold b c n hb hn) hm hn

/-- The children of a block go to it and to one without children. -/
theorem Sound.split (hsound : Sound s) {a r : ℕ} {block left right right₀ : Block E D}
    (hblock : s.store a = some block) (hright : s.store r = some right₀) (hne : a ≠ r)
    (hempty : right₀.children = []) (hlevel : left.level = block.level)
    (hlevel' : right.level = block.level) (hsame : right₀.level = right.level)
    (hroot : block.isRoot = false → left.isRoot = false)
    (hroot' : right₀.isRoot = false → right.isRoot = false)
    (hchildren : block.children = left.children ++ right.children) :
    Sound ((s.put a left).put r right) := by
  have hnodup := hsound.nodup a block hblock
  rw [hchildren, List.nodup_append] at hnodup
  have hold (node c : ℕ) (b : Block E D) (hb : ((s.put a left).put r right).store node = some b)
      (hc : c ∈ b.children) : ∃ node₀ b₀, s.store node₀ = some b₀ ∧ c ∈ b₀.children ∧
        b.level = b₀.level ∧ (node = r ∧ node₀ = a ∧ c ∈ right.children ∨
          node₀ = node ∧ (node = a → c ∈ left.children)) := by
    rcases TreeState.put_cases hb with ⟨rfl, rfl⟩ | ⟨-, hb⟩
    · exact ⟨a, block, hblock, hchildren ▸ List.mem_append_right _ hc, hlevel',
        .inl ⟨rfl, rfl, hc⟩⟩
    · rcases TreeState.put_cases hb with ⟨rfl, rfl⟩ | ⟨hna, hb⟩
      · exact ⟨node, block, hblock, hchildren ▸ List.mem_append_left _ hc, hlevel,
          .inr ⟨rfl, fun _ => hc⟩⟩
      · exact ⟨node, b, hb, hc, rfl, .inr ⟨rfl, fun ha => absurd ha hna⟩⟩
  have hkept (d : ℕ) (b₀ : Block E D) (hb₀ : s.store d = some b₀) :
      ∃ b, ((s.put a left).put r right).store d = some b ∧ b.level = b₀.level ∧
        (b₀.isRoot = false → b.isRoot = false) := by
    by_cases hr : d = r
    · subst hr
      obtain rfl := Option.some.inj (hb₀.symm.trans hright)
      exact ⟨right, TreeState.put_self _ d right, hsame.symm, hroot'⟩
    · by_cases ha : d = a
      · subst ha
        obtain rfl := Option.some.inj (hb₀.symm.trans hblock)
        exact ⟨left, (TreeState.put_of_ne hr _ right).trans (s.put_self d left), hlevel, hroot⟩
      · exact ⟨b₀, (TreeState.put_of_ne hr _ right).trans
          ((TreeState.put_of_ne ha s left).trans hb₀), rfl, id⟩
  refine ⟨?_, ?_, ?_, ?_⟩
  · intro node b hb
    rcases TreeState.put_cases hb with ⟨rfl, -⟩ | ⟨-, hb⟩
    · exact hsound.fresh node right₀ hright
    · rcases TreeState.put_cases hb with ⟨rfl, -⟩ | ⟨-, hb⟩
      · exact hsound.fresh node block hblock
      · exact hsound.fresh node b hb
  · intro node b hb c hc
    obtain ⟨node₀, b₀, hb₀, hin, hl, -⟩ := hold node c b hb hc
    obtain ⟨child, hchild, hcl, hcr⟩ := hsound.child node₀ b₀ hb₀ c hin
    obtain ⟨child', hchild', hcl', hcr'⟩ := hkept c child hchild
    exact ⟨child', hchild', by omega, hcr' hcr⟩
  · intro node b hb
    rcases TreeState.put_cases hb with ⟨rfl, rfl⟩ | ⟨-, hb⟩
    · exact hnodup.2.1
    · rcases TreeState.put_cases hb with ⟨rfl, rfl⟩ | ⟨-, hb⟩
      · exact hnodup.1
      · exact hsound.nodup node b hb
  · intro x m y n c hx hy hm hn
    obtain ⟨x₀, m₀, hm₀, hmin, -, hxcase⟩ := hold x c m hx hm
    obtain ⟨y₀, n₀, hn₀, hnin, -, hycase⟩ := hold y c n hy hn
    have hsingle := hsound.single x₀ m₀ y₀ n₀ c hm₀ hn₀ hmin hnin
    rcases hxcase with ⟨rfl, rfl, hxr⟩ | ⟨rfl, hxl⟩
    · rcases hycase with ⟨rfl, -, -⟩ | ⟨rfl, hyl⟩
      · rfl
      · exact absurd rfl (hnodup.2.2 c (hyl hsingle.symm) c hxr)
    · rcases hycase with ⟨rfl, rfl, hyr⟩ | ⟨rfl, -⟩
      · exact absurd rfl (hnodup.2.2 c (hxl hsingle) c hyr)
      · exact hsingle

theorem Spine.put (hspine : Spine s level) {block block' : Block E D}
    (hblock : s.store (s.path.nodes level) = some block) (hlevel : block'.level = block.level)
    (hroot : block'.isRoot = block.isRoot) : Spine (s.put (s.path.nodes level) block') level := by
  obtain ⟨b, hb, hblevel, -⟩ := hspine.at_level
  obtain rfl := Option.some.inj (hblock.symm.trans hb)
  refine hspine.of_blocks rfl ?_
  intro k c hk hsize hc
  by_cases hsame : s.path.nodes k = s.path.nodes level
  · rw [hsame] at hc ⊢
    obtain rfl := Option.some.inj (hblock.symm.trans hc)
    refine ⟨block', s.put_self _ _, hlevel, hroot, ?_⟩
    intro hlt
    obtain ⟨c, hc, hclevel, -⟩ := hspine.node k hk hsize
    rw [hsame] at hc
    obtain rfl := Option.some.inj (hblock.symm.trans hc)
    omega
  · exact ⟨c, (TreeState.put_of_ne hsame s block').trans hc, rfl, rfl, fun _ => List.Subset.refl _⟩

theorem Keeps.put {p : ℕ} {block block' : Block E D} (hblock : s.store p = some block)
    (hlevel : level ≤ block.level) (hlevel' : level ≤ block'.level)
    (hchildren : ∀ id, ¬ linked id → id ∈ block'.children → id ∈ block.children) :
    Keeps s (s.put p block') level linked := by
  refine ⟨?_, ?_, fun _ _ => rfl, le_rfl⟩
  · intro id b hlt
    by_cases hid : id = p
    · subst hid
      rw [s.put_self, hblock]
      constructor <;> rintro ⟨⟩ <;> omega
    · rw [TreeState.put_of_ne hid]
  · intro id b hb hlt hnot horphan node c hc
    rcases TreeState.put_cases hc with ⟨rfl, rfl⟩ | ⟨-, hc⟩
    · exact fun hmem => horphan node block hblock (hchildren id hnot hmem)
    · exact horphan node c hc

theorem Exact.of_blocks (hexact : Exact layout s level except)
    (hblocks : ∀ id block, s'.store id = some block → level ≤ block.level →
      block.entries = [] ∨ s.store id = some block)
    (hchildren : ∀ id block, s.store id = some block → level ≤ block.level →
      ∀ c ∈ block.children, ¬ except' c → ¬ except c ∧ ∀ child, s'.store c = some child →
        ∃ child', s.store c = some child' ∧ child'.body = child.body) :
    Exact layout s' level except' := by
  intro id block hblock hlevel e he hnot child hchild
  rcases hblocks id block hblock hlevel with hnone | hold
  · rw [hnone] at he
    exact absurd he List.not_mem_nil
  · obtain ⟨hexcept, hsame⟩ :=
      hchildren id block hold hlevel e.2 (Block.mem_children he) hnot
    obtain ⟨child', hchild', hbody⟩ := hsame child hchild
    rw [← hbody]
    exact hexact id block hold hlevel e he hexcept child' hchild'

/-- One branch is changed, and its own entry may be wrong afterwards. -/
theorem Exact.put (hexact : Exact layout s level except) {p : ℕ} {block' : Block E D}
    (hentries : ∀ e ∈ block'.entries, e.2 ≠ p → ∀ child, s.store e.2 = some child →
      e.1 = layout.maxKeys child.body)
    (hothers : ∀ id block, s.store id = some block → id ≠ p → ∀ c ∈ block.children, ¬ except c) :
    Exact layout (s.put p block') level (· = p) := by
  intro id block hblock hlevel e he hne child hchild
  rw [TreeState.put_of_ne hne] at hchild
  rcases TreeState.put_cases hblock with ⟨rfl, rfl⟩ | ⟨hid, hblock⟩
  · exact hentries e he hne child hchild
  · exact hexact id block hblock hlevel e he
      (hothers id block hblock hid e.2 (Block.mem_children he)) child hchild

/-- What is exact above a level, and exact at the level before, is so together. -/
theorem Exact.join {p : ℕ} {block : Block E D} (hexact : Exact layout s level (· = p))
    (hblock : s.store p = some block) (hlevel : level ≤ block.level) (hsound' : Sound s')
    (habove : Exact layout s' (level + 1) fun _ => False) (hkeeps : Keeps s s' (level + 1) linked) :
    Exact layout s' level fun _ => False := by
  intro id b hb hle e he _ child hchild
  rcases Nat.eq_or_lt_of_le hle with heq | hlt
  · have hold : s.store id = some b := (hkeeps.blocks id b (by omega)).mp hb
    obtain ⟨child', hchild', hclevel, -⟩ := hsound'.child id b hb e.2 (Block.mem_children he)
    obtain rfl := Option.some.inj (hchild.symm.trans hchild')
    have hcold : s.store e.2 = some child := (hkeeps.blocks e.2 child (by omega)).mp hchild
    refine hexact id b hold hle e he ?_ child hcold
    rintro rfl
    obtain rfl := Option.some.inj (hcold.symm.trans hblock)
    omega
  · exact habove id b hb hlt e he not_false child hchild

theorem Exact.mono (hexact : Exact layout s level except) {upper : ℕ} (hle : level ≤ upper)
    (hexcept : ∀ id, except id → except' id) : Exact layout s upper except' :=
  fun id block hblock hlevel e he hnot child hchild =>
    hexact id block hblock (hle.trans hlevel) e he (fun h => hnot (hexcept e.2 h)) child hchild

structure Inv (layout : Layout E D) (s : TreeState E D) (level lowest : ℕ) (except : ℕ → Prop) :
    Prop where
  sound : Sound s
  spine : Spine s level
  entries : Exact layout s lowest except

def NotPacked (failure : Failure) (_ : TreeState E D) : Prop := failure ≠ .packed

theorem ends_of_notPacked {α : Type} {x : Op E D α} {ok : α → TreeState E D → Prop} {P : Prop}
    (hends : Ends x s ok NotPacked) : Ends x s ok fun failure _ => failure = .packed → P :=
  hends.imp (fun _ _ => id) fun _ _ hnot hpacked => (hnot hpacked).elim

theorem notPacked_generic (s : TreeState E D) : NotPacked .generic s := by
  rintro ⟨⟩

theorem getChildIdx_outcome {block : Block E D} (hnodup : block.children.Nodup) {idx : ℕ}
    {e : E × ℕ} (he : block.entries[idx]? = some e) :
    (getChildIdx block e.2 : Op E D ℕ).outcome s = some (.ok idx, s) := by
  obtain ⟨found, hfound⟩ := Block.exists_findChildIdx (Block.mem_children (List.mem_of_getElem? he))
  obtain ⟨e', he', hid⟩ := Block.findChildIdx_some hfound
  obtain rfl := Block.idx_unique hnodup he' he hid
  rw [getChildIdx, hfound]
  rfl

/-- In a parent that has both, the node before is the left one. -/
theorem expectPrev_outcome {path : TreePath} {block parent : Block E D} (hsize : level + 1 < path.size)
    (hblock : s.store (path.nodes level) = some block) (hroot : block.isRoot = false)
    (hparent : s.store (path.nodes (level + 1)) = some parent) (hnodup : parent.children.Nodup)
    {i : ℕ} {left right : E × ℕ} (hleft : parent.entries[i]? = some left)
    (hright : parent.entries[i + 1]? = some right) (hid : right.2 = path.nodes level) :
    (expectAdjacentNode false path level : Op E D TreePath).outcome s =
      some (.ok (path.set level left.2), s) := by
  obtain ⟨levels, hlevels⟩ : ∃ levels, path.size - (level + 1) = levels + 1 :=
    ⟨path.size - (level + 1) - 1, by omega⟩
  have hadjacent : (adjacentNode false (levels + 1) path level : Op E D _).outcome s =
      some (.ok (true, path.set level left.2), s) := by
    rw [adjacentNode, bind_outcome (pathNode_outcome s (Nat.lt_of_succ_lt hsize)),
      bind_outcome (getBlock_outcome hblock), hroot]
    change ((pathNode path (level + 1) >>= _ : Op E D _).outcome s) = _
    rw [bind_outcome (pathNode_outcome s hsize), bind_outcome (getBlock_outcome hparent), ← hid,
      bind_outcome (getChildIdx_outcome hnodup hright)]
    change (goToChild path level parent i).outcome s = _
    rw [goToChild, hleft]
    rfl
  rw [expectAdjacentNode, hlevels, bind_outcome hadjacent]
  rfl

end Memoria.TreeUpdate

import Memoria.Lib.SplitTree

/-!
# Merging neighbours of a search tree

Two nodes that follow each other on their level stand under one parent, or each under its own, and
then the parents follow each other too. Merging the nodes merges first the parents, down from the
common ancestor, so that in the end each pair of nodes has one parent. A root that is left with one
child is dropped.
-/

namespace Memoria.Lib

variable {K V : Type} {l : Nat}

inductive Fork (K V : Type) : Nat → Type
  | joint {l : Nat} (w : Twins K V l) : Fork K V l
  | apart {l : Nat} (p : Nat) (left : List (K × Slot K V (l + 1))) (key : K) (p' : Nat) (key' : K)
      (right : List (K × Slot K V (l + 1))) (g : Fork K V (l + 1)) : Fork K V l

namespace Fork

def plug : {l : Nat} → Fork K V l → Slot K V (l + 1) → Slot K V (l + 1) → Root K V
  | _, joint w, s, r => w.plug s r
  | _, apart p left key p' key' right g, s, r =>
      g.plug (.node p (left ++ [(key, s)])) (.node p' ((key', r) :: right))

def first : {l : Nat} → Fork K V l → Slot K V (l + 1) → Ctx K V l
  | _, joint w, r => w.first r
  | _, apart p left key p' key' right g, r =>
      .up ⟨p, left, key, []⟩ (g.first (.node p' ((key', r) :: right)))

def second : {l : Nat} → Fork K V l → Slot K V (l + 1) → Ctx K V l
  | _, joint w, s => w.second s
  | _, apart p left key p' key' right g, s =>
      .up ⟨p', [], key', right⟩ (g.second (.node p (left ++ [(key, s)])))

def path : {l : Nat} → Fork K V l → List Nat
  | _, joint w => w.addr :: w.ctx.path
  | _, apart p _ _ _ _ _ g => p :: g.path

def path' : {l : Nat} → Fork K V l → List Nat
  | _, joint w => w.addr :: w.ctx.path
  | _, apart _ _ _ p' _ _ g => p' :: g.path'

def AtRoot : {l : Nat} → Fork K V l → Prop
  | _, joint w => w.ctx.path = []
  | _, apart _ _ _ _ _ _ g => g.AtRoot

def CanMerge (n : Nat) : {l : Nat} → Fork K V l → Slot K V (l + 1) → Slot K V (l + 1) → Prop
  | _, joint _, s, r => s.entries.length + r.entries.length ≤ n
  | _, apart p left key p' key' right g, s, r => s.entries.length + r.entries.length ≤ n ∧
      g.CanMerge n (.node p (left ++ [(key, s)])) (.node p' ((key', r) :: right))

def loOf : {l : Nat} → Fork K V l → WithBot K
  | _, joint w => lastOr w.ctx.loOf w.left
  | _, apart _ left _ _ _ _ g => lastOr g.loOf left

def trailOf : {l : Nat} → Fork K V l → Bool
  | _, joint w => w.ctx.trailOf && w.right.isEmpty
  | _, apart _ _ _ _ _ right g => g.trailOf && right.isEmpty

theorem plug_first (g : Fork K V l) (s r : Slot K V (l + 1)) : (g.first r).plug s = g.plug s r := by
  induction g with
  | joint w => rfl
  | apart p left key p' key' right g ih => exact ih _ _

theorem plug_second (g : Fork K V l) (s r : Slot K V (l + 1)) :
    (g.second s).plug r = g.plug s r := by
  induction g with
  | joint w => exact w.plug_second s r
  | apart p left key p' key' right g ih => exact ih _ _

@[simp] theorem path_first (g : Fork K V l) (r : Slot K V (l + 1)) : (g.first r).path = g.path := by
  induction g with
  | joint w => rfl
  | apart p left key p' key' right g ih => exact congrArg _ (ih _)

@[simp] theorem path_second (g : Fork K V l) (s : Slot K V (l + 1)) :
    (g.second s).path = g.path' := by
  induction g with
  | joint w => rfl
  | apart p left key p' key' right g ih => exact congrArg _ (ih _)

theorem path_ne_nil (g : Fork K V l) : g.path ≠ [] := by cases g <;> simp [path]

theorem path'_ne_nil (g : Fork K V l) : g.path' ≠ [] := by cases g <;> simp [path']

@[simp] theorem loOf_first (g : Fork K V l) (r : Slot K V (l + 1)) : (g.first r).loOf = g.loOf := by
  induction g with
  | joint w => rfl
  | apart p left key p' key' right g ih =>
      rw [first, Ctx.loOf, loOf, ih]

@[simp] theorem trailOf_second (g : Fork K V l) (s : Slot K V (l + 1)) :
    (g.second s).trailOf = g.trailOf := by
  induction g with
  | joint w => rfl
  | apart p left key p' key' right g ih =>
      rw [second, Ctx.trailOf, trailOf, ih]

end Fork

theorem Fork.after_first (g : Fork K V l) (s r : Slot K V (l + 1)) :
    (g.first r).after = flatOf r.entries ++ (g.second s).after := by
  induction g with
  | joint w => simp [first, second, Twins.first, Twins.second, Ctx.after, flat_succ]
  | apart p left key p' key' right g ih =>
      rw [first, second, Ctx.after, Ctx.after, ih (.node p (left ++ [(key, s)]))]
      simp [flat_succ]

/-- The left node sees all of the right one. -/
theorem Fork.addrs_subset_first (g : Fork K V l) (r : Slot K V (l + 1)) :
    ∀ p ∈ addrs (l + 1) r, p ∈ (g.first r).siblingAddrs := by
  intro p hp
  induction g with
  | joint w => simp [first, Twins.first, Ctx.siblingAddrs, Frame.siblings, hp]
  | apart q left key q' key' right g ih =>
      refine List.mem_append_right _ (ih _ (List.mem_cons_of_mem _ ?_))
      change p ∈ addrsOf ((key', r) :: right)
      exact List.mem_append_left _ hp

def Ctx.LeftEdge : {l : Nat} → Ctx K V l → Prop
  | _, .top => True
  | _, .up f c => f.left = [] ∧ c.LeftEdge

def join (s r : Slot K V (l + 1)) : Slot K V (l + 1) := .node s.addr (s.entries ++ r.entries)

@[simp] theorem addr_join (s r : Slot K V (l + 1)) : (join s r).addr = s.addr := rfl

@[simp] theorem entries_join (s r : Slot K V (l + 1)) :
    (join s r).entries = s.entries ++ r.entries := rfl

theorem Ctx.eq_top_of_path {c : Ctx K V l} (h : c.path = []) : c = .top := by
  cases c with
  | top => rfl
  | up f c => cases h

section Merge

variable [Inhabited K]

def Twins.frame (w : Twins K V l) : Frame K V l := ⟨w.addr, w.left, w.key, w.right⟩

def Twins.Alone (w : Twins K V l) : Prop := w.ctx.path = [] ∧ w.left = [] ∧ w.right = []

instance (w : Twins K V l) : Decidable w.Alone :=
  decidable_of_iff (w.ctx.path.isEmpty && w.left.isEmpty && w.right.isEmpty)
    (by simp [Twins.Alone, and_assoc])

def Twins.merge (w : Twins K V l) (s r : Slot K V (l + 1)) : Ctx K V l :=
  if w.Alone then .top else (Ctx.up w.frame w.ctx).fixKeys (join s r)

def Fork.merge : {l : Nat} → Fork K V l → Slot K V (l + 1) → Slot K V (l + 1) → Ctx K V l
  | _, joint w, s, r => w.merge s r
  | _, apart p left key p' key' right g, s, r =>
      Twins.merge ⟨p, left, key, key', right,
        g.merge (.node p (left ++ [(key, s)])) (.node p' ((key', r) :: right))⟩ s r

theorem Twins.before_merge (w : Twins K V l) (s r : Slot K V (l + 1)) :
    (w.merge s r).before = w.before := by
  unfold merge
  split
  · rename_i halone
    obtain ⟨hctx, hleft, -⟩ := halone
    simp [before, Ctx.eq_top_of_path hctx, hleft, Ctx.before]
  · rw [Ctx.before_fixKeys]
    rfl

theorem Twins.after_merge (w : Twins K V l) (s r : Slot K V (l + 1)) :
    (w.merge s r).after = w.after := by
  unfold merge
  split
  · rename_i halone
    obtain ⟨hctx, -, hright⟩ := halone
    simp [after, Ctx.eq_top_of_path hctx, hright, Ctx.after]
  · rw [Ctx.after_fixKeys]
    rfl

theorem Twins.path_merge (w : Twins K V l) (s r : Slot K V (l + 1)) :
    (w.merge s r).path = [] ∨ (w.merge s r).path = w.addr :: w.ctx.path := by
  unfold merge
  split
  · exact Or.inl rfl
  · rw [Ctx.path_fixKeys]
    exact Or.inr rfl

/-- Merging may drop nodes from the path of the left node. -/
theorem Fork.path_merge_sublist (g : Fork K V l) (s r : Slot K V (l + 1)) :
    (g.merge s r).path.Sublist g.path := by
  induction g with
  | joint w =>
      rcases w.path_merge s r with hpath | hpath
      · rw [merge, hpath]
        exact List.nil_sublist _
      · rw [merge, hpath]
        exact List.Sublist.refl _
  | apart q left key q' key' right g ih =>
      let w : Twins K V _ := ⟨q, left, key, key', right,
        g.merge (.node q (left ++ [(key, s)])) (.node q' ((key', r) :: right))⟩
      have hmerge : (Fork.apart q left key q' key' right g).merge s r = w.merge s r := rfl
      rw [hmerge]
      rcases w.path_merge s r with hpath | hpath
      · rw [hpath]
        exact List.nil_sublist _
      · rw [hpath]
        exact (ih _ _).cons_cons q

/-- Merging does not change the bindings. -/
theorem Fork.flatRoot_merge (g : Fork K V l) (s r : Slot K V (l + 1)) :
    flatRoot ((g.merge s r).plug (join s r)) = flatRoot (g.plug s r) := by
  have hjoin : (g.merge s r).before = (g.first r).before ∧
      flatOf (join s r).entries ++ (g.merge s r).after
        = flatOf s.entries ++ (g.first r).after := by
    induction g with
    | joint w =>
        rw [merge, w.before_merge, w.after_merge, entries_join, flatOf_append]
        refine ⟨rfl, ?_⟩
        simp [first, Twins.first, Ctx.after, Twins.after, flat_succ]
    | apart p left key p' key' right g ih =>
        obtain ⟨hbefore, hafter⟩ := ih (.node p (left ++ [(key, s)])) (.node p' ((key', r) :: right))
        rw [merge, Twins.before_merge, Twins.after_merge]
        simp only [Twins.before, Twins.after, first, Ctx.before, Ctx.after, hbefore]
        refine ⟨trivial, ?_⟩
        simp only [entries_join, Slot.entries_node, flatOf_append, flatOf_cons, flatOf_nil,
          flat_succ, List.append_assoc, List.append_nil, List.nil_append] at hafter ⊢
        exact List.append_cancel_left hafter
  rw [flatRoot_plug, ← g.plug_first, flatRoot_plug, List.append_assoc, hjoin.2, hjoin.1,
    List.append_assoc]

end Merge

section Order

variable [Inhabited K] [LinearOrder K]

def Fork.ValidAt : {l : Nat} → Fork K V l → Slot K V (l + 1) → Slot K V (l + 1) → Prop
  | _, joint w, s, r => Valid (w.ctx.xplug
      (Twins.parent { w with key := lastKey s.entries, key' := lastKey r.entries } s r))
  | _, apart p left _ p' _ right g, s, r =>
      g.ValidAt (.node p (left ++ [(lastKey s.entries, s)]))
        (.node p' ((lastKey r.entries, r) :: right))

theorem Fork.ValidAt.chains {g : Fork K V l} {s r : Slot K V (l + 1)} (h : g.ValidAt s r) :
    (s.entries ≠ [] ∧ Chain (VSlot l) false g.loOf s.entries) ∧
      r.entries ≠ [] ∧ Chain (VSlot l) g.trailOf ↑(lastKey s.entries) r.entries := by
  induction g with
  | joint w =>
      have hparent := h.chain_at.1
      rw [Twins.parent, Slot.entries_node, chain_append] at hparent
      obtain ⟨-, ⟨-, hs, hchain, -⟩, ⟨-, hr, hchain', -⟩, -⟩ := hparent
      rw [List.isEmpty_cons, Bool.and_false] at hchain
      exact ⟨⟨hs, hchain⟩, hr, hchain'⟩
  | apart p left key p' key' right g ih =>
      obtain ⟨⟨-, hleft⟩, -, hright⟩ := ih h
      rw [Slot.entries_node, chain_append] at hleft
      rw [Slot.entries_node, Slot.entries_node, lastKey_concat] at hright
      obtain ⟨-, ⟨-, hs, hchain, -⟩, -⟩ := hleft
      obtain ⟨⟨-, hr, hchain', -⟩, -⟩ := hright
      exact ⟨⟨hs, hchain⟩, hr, hchain'⟩

theorem Fork.validAt_joint {w : Twins K V l} {s r : Slot K V (l + 1)} :
    (joint w).ValidAt s r ↔
      Valid ((Twins.second { w with key := lastKey s.entries } s).xplug r) := by
  simp [ValidAt, Twins.second, Twins.parent, Ctx.xplug, Frame.plug]

/-- A smaller right node. -/
theorem Fork.ValidAt.replace {g : Fork K V l} {s r r' : Slot K V (l + 1)} (h : g.ValidAt s r)
    (hne : r'.entries ≠ [])
    (hchain : Chain (VSlot l) g.trailOf ↑(lastKey s.entries) r'.entries)
    (hle : g.trailOf = false → lastKey r'.entries ≤ lastKey r.entries) : g.ValidAt s r' := by
  induction g with
  | joint w =>
      refine validAt_joint.mpr ((validAt_joint.mp h).replace (fun _ => hne) ?_ hle)
      have hlo : (Twins.second { w with key := lastKey s.entries } s).loOf
          = ↑(lastKey s.entries) := by
        simp [Twins.second, Ctx.loOf, lastOr_append]
      rw [hlo]
      exact hchain
  | apart p left key p' key' right g ih =>
      obtain ⟨-, -, hparent⟩ := Fork.ValidAt.chains (g := g) h
      rw [Slot.entries_node, Slot.entries_node, lastKey_concat] at hparent
      have hlast : lastKey ((lastKey r'.entries, r') :: right)
          = if right.isEmpty then lastKey r'.entries else lastKey right := by
        have := lastKey_plug ⟨p', [], lastKey r'.entries, right⟩ r'
        simpa using this
      have hlast' : lastKey ((lastKey r.entries, r) :: right)
          = if right.isEmpty then lastKey r.entries else lastKey right := by
        have := lastKey_plug ⟨p', [], lastKey r.entries, right⟩ r
        simpa using this
      refine ih h (by simp) ?_ ?_
      · rw [Slot.entries_node, Slot.entries_node, lastKey_concat]
        refine ⟨⟨hchain.lt_lastKey hne, hne, hchain, fun _ => rfl⟩, ?_⟩
        cases right with
        | nil => trivial
        | cons e right => exact hparent.2.mono (WithBot.coe_le_coe.mpr (hle (by simp [trailOf])))
      · intro htrail
        rw [Slot.entries_node, Slot.entries_node, hlast, hlast']
        split
        · exact hle (by simp [trailOf, htrail])
        · exact le_rfl

/-- The keys on the path of the right node do not matter, nor does it matter that those on the path
of the left one are out of date. -/
theorem Fork.validAt_of_first {g : Fork K V l} {s r : Slot K V (l + 1)}
    (h : Valid ((g.first r).xplug s)) : g.ValidAt s r := by
  induction g with
  | joint w =>
      have hplug : Valid (w.ctx.xplug
          (Frame.plug ⟨w.addr, w.left ++ [(lastKey s.entries, s)], w.key', w.right⟩ r)) := by
        simpa [first, Twins.first, Ctx.xplug, Frame.plug] using h
      exact validAt_joint.mpr hplug.exactKey.1
  | apart p left key p' key' right g ih =>
      have hparent : g.ValidAt (.node p (left ++ [(lastKey s.entries, s)]))
        (.node p' ((key', r) :: right)) := ih h
      obtain ⟨-, -, hchain⟩ := hparent.chains
      rw [Slot.entries_node, Slot.entries_node, lastKey_concat] at hchain
      obtain ⟨⟨hlt, hne, hchain, hexact⟩, hrest⟩ := hchain
      refine Fork.ValidAt.replace (g := g) hparent (by simp) ?_ ?_
      · rw [Slot.entries_node, Slot.entries_node, lastKey_concat]
        refine ⟨⟨hchain.lt_lastKey hne, hne, hchain, fun _ => rfl⟩, ?_⟩
        cases right with
        | nil => trivial
        | cons e right =>
            rw [hexact (by simp)]
            exact hrest
      · intro htrail
        rw [htrail, Bool.false_and] at hexact
        rw [hexact rfl]

/-- Inside the tree all keys are exact. -/
theorem Fork.validAt_of_second {g : Fork K V l} {s r : Slot K V (l + 1)}
    (h : Valid ((g.second s).xplug r)) : g.ValidAt s r := by
  induction g with
  | joint w =>
      have hparent := (Valid.chain_at (c := w.ctx) h).1
      rw [Frame.entries_plug, chain_append, chain_append] at hparent
      obtain ⟨⟨-, ⟨-, -, -, hexact⟩, -⟩, -⟩ := hparent
      rw [validAt_joint, hexact (by simp)]
      exact h
  | apart p left key p' key' right g ih =>
      have hparent := ih h
      obtain ⟨⟨-, hchain⟩, -⟩ := hparent.chains
      rw [Slot.entries_node, chain_append] at hchain
      obtain ⟨-, ⟨-, -, -, hexact⟩, -⟩ := hchain
      rw [ValidAt, show lastKey s.entries = key from hexact rfl]
      exact hparent

theorem Twins.valid_merge {w : Twins K V l} {p : Nat} {es : List (K × Slot K V l)}
    (h : Valid (w.ctx.xplug (.node w.addr (w.left ++ (lastKey es, .node p es) :: w.right))))
    (s r : Slot K V (l + 1)) : Valid ((w.merge s r).xplug (.node p es)) := by
  unfold merge
  split
  · rename_i halone
    obtain ⟨hctx, hleft, hright⟩ := halone
    rw [Ctx.eq_top_of_path hctx, hleft, hright] at h
    obtain ⟨-, ⟨-, hne, hchain, -⟩, -⟩ := h
    exact ⟨Or.inr hne, hchain⟩
  · rw [Ctx.xplug_fixKeys]
    exact h

/-- Merging keeps the tree in order, for any entries that fit between the two nodes. -/
theorem Fork.ValidAt.merge {g : Fork K V l} {s r : Slot K V (l + 1)} (h : g.ValidAt s r)
    (s' r' : Slot K V (l + 1)) (p : Nat) {es : List (K × Slot K V l)} (hne : es ≠ [])
    (hchain : Chain (VSlot l) g.trailOf g.loOf es)
    (hle : g.trailOf = false → lastKey es ≤ lastKey r.entries) :
    Valid ((g.merge s' r').xplug (.node p es)) := by
  induction g generalizing p with
  | joint w =>
      refine Twins.valid_merge ?_ s' r'
      have hparent := h.chain_at.1
      rw [Twins.parent, Slot.entries_node, chain_append] at hparent
      obtain ⟨hleft, -, -, hright⟩ := hparent
      refine Valid.replace h (by simp) ?_ ?_
      · rw [Slot.entries_node, chain_append]
        refine ⟨hleft, ⟨hchain.lt_lastKey hne, hne, hchain, fun _ => rfl⟩, ?_⟩
        cases hempty : w.right with
        | nil => trivial
        | cons e right =>
            rw [hempty] at hright
            exact hright.mono (WithBot.coe_le_coe.mpr (hle (by simp [trailOf, hempty])))
      · intro htrail
        rw [Twins.parent, Slot.entries_node, Slot.entries_node, lastKey_append_cons,
          lastKey_append_cons, lastKey_cons, lastKey_cons, lastKey_cons]
        simp only [List.isEmpty_cons, Bool.false_eq_true, if_false]
        split
        · exact hle (by simp [trailOf, htrail])
        · exact le_rfl
  | apart q left key q' key' right g ih =>
      refine Twins.valid_merge ?_ s' r'
      obtain ⟨⟨-, hleft⟩, -, hright⟩ := Fork.ValidAt.chains (g := g) h
      rw [Slot.entries_node, chain_append] at hleft
      rw [Slot.entries_node, Slot.entries_node, lastKey_concat] at hright
      refine ih h _ _ q (by simp) ?_ ?_
      · rw [chain_append]
        refine ⟨?_, ⟨hchain.lt_lastKey hne, hne, hchain, fun _ => rfl⟩, ?_⟩
        · rw [List.isEmpty_cons, Bool.and_false]
          exact hleft.1
        · cases right with
          | nil => trivial
          | cons e right =>
              exact hright.2.mono (WithBot.coe_le_coe.mpr (hle (by simp [trailOf])))
      · intro htrail
        rw [Slot.entries_node, lastKey_append_cons, lastKey_cons, lastKey_cons]
        split
        · exact hle (by simp [trailOf, htrail])
        · exact le_rfl

def Fork.Loose : {l : Nat} → Fork K V l → Prop
  | _, joint w => (Ctx.up w.frame w.ctx).Loose
  | _, apart _ _ _ _ _ _ g => g.Loose

theorem Fork.loose_of_second {g : Fork K V l} {s : Slot K V (l + 1)} (h : (g.second s).Loose) :
    g.Loose := by
  induction g with
  | joint w => exact h
  | apart p left key p' key' right g ih =>
      refine ih (s := .node p (left ++ [(key, s)])) ?_
      unfold second Ctx.Loose at h
      split at h
      · exact h
      · exact h.loose

theorem Fork.loose_of_first {g : Fork K V l} {r : Slot K V (l + 1)} (h : (g.first r).Loose) :
    g.Loose := by
  induction g with
  | joint w =>
      exact Ctx.KeysAt.loose_up (f := w.frame) (e := (w.key', r)) h
  | apart p left key p' key' right g ih => exact ih h

theorem Twins.keysAt_merge {w : Twins K V l} (h : (Ctx.up w.frame w.ctx).Loose)
    (s r : Slot K V (l + 1)) : (w.merge s r).KeysAt (lastKey (join s r).entries) := by
  unfold merge
  split
  · trivial
  · exact Ctx.keysAt_fixKeys h _

theorem Fork.Loose.keysAt_merge {g : Fork K V l} (h : g.Loose) (s r : Slot K V (l + 1)) :
    (g.merge s r).KeysAt (lastKey (join s r).entries) := by
  induction g with
  | joint w => exact Twins.keysAt_merge h s r
  | apart p left key p' key' right g ih =>
      refine Twins.keysAt_merge ?_ s r
      have hparent := ih h (.node p (left ++ [(key, s)])) (.node p' ((key', r) :: right))
      rw [entries_join, Slot.entries_node, Slot.entries_node, lastKey_append_cons] at hparent
      exact Ctx.KeysAt.loose_up hparent

end Order

end Memoria.Lib

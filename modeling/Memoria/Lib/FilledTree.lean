import Memoria.Lib.SizedTree

/-!
# Trees whose branches have children

Whatever becomes of the keys, and of the entries of the leaves, the nodes before and behind a
position can be found as long as no branch has lost all its children.
-/

namespace Memoria.Lib

variable {K V : Type} {l n : Nat}

def FilledSlot : (l : Nat) → Slot K V l → Prop
  | 0, _ => True
  | l + 1, s => (l ≠ 0 → s.entries ≠ []) ∧ ∀ e ∈ s.entries, FilledSlot l e.2

def FilledOf (es : List (K × Slot K V l)) : Prop := ∀ e ∈ es, FilledSlot l e.2

def Filled (r : Root K V) : Prop := FilledSlot (r.1 + 1) r.2

def Ctx.Filled : {l : Nat} → Ctx K V l → Prop
  | _, .top => True
  | _, .up f c => FilledOf f.siblings ∧ c.Filled

@[simp] theorem filledOf_append {es es' : List (K × Slot K V l)} :
    FilledOf (es ++ es') ↔ FilledOf es ∧ FilledOf es' := by
  simp only [FilledOf, List.mem_append]
  exact ⟨fun h => ⟨fun e he => h e (Or.inl he), fun e he => h e (Or.inr he)⟩,
    fun h e he => he.elim (h.1 e) (h.2 e)⟩

@[simp] theorem filledOf_cons {e : K × Slot K V l} {es : List (K × Slot K V l)} :
    FilledOf (e :: es) ↔ FilledSlot l e.2 ∧ FilledOf es := by
  simp [FilledOf]

@[simp] theorem filledOf_nil : FilledOf ([] : List (K × Slot K V l)) := by
  intro e he
  cases he

theorem filledSlot_node {s : Slot K V (l + 1)} :
    FilledSlot (l + 1) s ↔ (l ≠ 0 → s.entries ≠ []) ∧ FilledOf s.entries := Iff.rfl

/-- A leaf may be empty. -/
theorem filledSlot_leaf (s : Slot K V 1) : FilledSlot 1 s :=
  ⟨fun h => absurd rfl h, fun _ _ => trivial⟩

theorem filledSlot_plug {f : Frame K V l} {s : Slot K V (l + 1)} :
    FilledSlot (l + 2) (f.plug s) ↔ FilledSlot (l + 1) s ∧ FilledOf f.siblings := by
  rw [filledSlot_node, Frame.entries_plug, Frame.siblings]
  simp only [filledOf_append, filledOf_cons]
  have hne : f.left ++ (f.key, s) :: f.right ≠ [] := by simp
  tauto

theorem filled_plug {c : Ctx K V l} {s : Slot K V (l + 1)} :
    Filled (c.plug s) ↔ FilledSlot (l + 1) s ∧ c.Filled := by
  induction c with
  | top => simp [Ctx.plug, Filled, Ctx.Filled]
  | up f c ih => rw [Ctx.plug, ih, filledSlot_plug, Ctx.Filled, and_assoc]

theorem Ctx.Same.filled {c c' : Ctx K V l} (h : Ctx.Same c c') (hfilled : c.Filled) :
    c'.Filled := by
  induction c with
  | top =>
      cases c' with
      | top => trivial
      | up f' c' => cases h
  | up f c ih =>
      cases c' with
      | top => cases h
      | up f' c' =>
          obtain ⟨hleft, hright, hc⟩ := h
          obtain ⟨hsiblings, hupper⟩ := hfilled
          refine ⟨?_, ih hc hupper⟩
          rw [Frame.siblings, hleft, hright]
          exact hsiblings

/-- A level takes an address at least. -/
theorem FilledSlot.le_length_addrs {s : Slot K V l} (h : FilledSlot l s) :
    l ≤ (addrs l s).length := by
  induction l with
  | zero => exact Nat.zero_le _
  | succ l ih =>
      rw [addrs_node, List.length_cons]
      by_cases hl : l = 0
      · omega
      · obtain ⟨e, es, hes⟩ := List.exists_cons_of_ne_nil (h.1 hl)
        have hle := ih (h.2 e (by simp [hes]))
        rw [hes, addrsOf_cons, List.length_append]
        omega

theorem Filled.lt_length_rootAddrs {r : Root K V} (h : Filled r) : r.1 < (rootAddrs r).length :=
  FilledSlot.le_length_addrs h

/-- The node behind the one at a position. -/
theorem exists_fork_behind {c : Ctx K V l} (h : c.Filled) :
    c.trailOf = true ∨ ∃ (g : Fork K V l) (r : Slot K V (l + 1)), g.first r = c ∧
      FilledSlot (l + 1) r := by
  induction c with
  | top => exact Or.inl rfl
  | up f c ih =>
      obtain ⟨p, left, key, right⟩ := f
      obtain ⟨hsiblings, hupper⟩ := h
      cases right with
      | cons e right =>
          have he : FilledSlot (_ + 1) e.2 := hsiblings e (by simp [Frame.siblings])
          exact Or.inr ⟨.joint ⟨p, left, key, e.1, right, c⟩, e.2, rfl, he⟩
      | nil =>
          rcases ih hupper with htrail | ⟨g, r, hg, hr⟩
          · exact Or.inl (by simp [Ctx.trailOf, htrail])
          · obtain ⟨e, es, hes⟩ := List.exists_cons_of_ne_nil (hr.1 (Nat.succ_ne_zero _))
            have he : FilledSlot (_ + 1) e.2 := hr.2 e (by simp [hes])
            refine Or.inr ⟨.apart p left key r.addr e.1 es g, e.2, ?_, he⟩
            rw [Fork.first, ← hes, Slot.node_eta, hg]

/-- The node before the one at a position. -/
theorem exists_fork_before {c : Ctx K V l} (h : c.Filled) :
    c.LeftEdge ∨ ∃ (g : Fork K V l) (r : Slot K V (l + 1)), g.second r = c ∧
      FilledSlot (l + 1) r := by
  induction c with
  | top => exact Or.inl trivial
  | up f c ih =>
      obtain ⟨p, left, key, right⟩ := f
      obtain ⟨hsiblings, hupper⟩ := h
      rcases List.eq_nil_or_concat' left with rfl | ⟨left, e, rfl⟩
      · rcases ih hupper with hedge | ⟨g, r, hg, hr⟩
        · exact Or.inl ⟨rfl, hedge⟩
        · obtain ⟨es, e, hes⟩ :=
            (List.eq_nil_or_concat' r.entries).resolve_left (hr.1 (Nat.succ_ne_zero _))
          have he : FilledSlot (_ + 1) e.2 := hr.2 e (by simp [hes])
          refine Or.inr ⟨.apart r.addr es e.1 p key right g, e.2, ?_, he⟩
          rw [Fork.second, ← hes, Slot.node_eta, hg]
      · have he : FilledSlot (_ + 1) e.2 := hsiblings e (by simp [Frame.siblings])
        exact Or.inr ⟨.joint ⟨p, left, e.1, key, right, c⟩, e.2, rfl, he⟩

section Keep

variable [Inhabited K]

theorem Frame.filled_attach {f : Frame K V l} {c : Ctx K V (l + 1)} {s r : Slot K V (l + 1)}
    (h : (Ctx.up f c).Filled) (hs : FilledSlot (l + 1) s) (hr : FilledSlot (l + 1) r) :
    Filled ((f.attach c s r).plug s r) := by
  obtain ⟨hsiblings, hc⟩ := h
  rw [siblings, filledOf_append] at hsiblings
  have hparent : FilledSlot (l + 2) ((f.attach c s r).parent s r) := by
    rw [filledSlot_node, Twins.parent, Slot.entries_node]
    simp only [attach, filledOf_append, filledOf_cons]
    exact ⟨fun _ => by simp, hsiblings.1, hs, hr, hsiblings.2⟩
  refine filled_plug.mpr ⟨hparent, ?_⟩
  unfold attach
  dsimp only
  split
  · exact (Ctx.same_fixKeys c _).filled hc
  · exact hc

theorem Grown.filled {c : Ctx K V l} {s r : Slot K V (l + 1)} {w : Twins K V l}
    (h : Grown n c s r w) (hc : c.Filled) (hs : FilledSlot (l + 1) s) (hr : FilledSlot (l + 1) r) :
    Filled (w.plug s r) := by
  induction h with
  | @root l s r p =>
      refine ⟨fun _ => ?_, filledOf_cons.mpr ⟨hs, filledOf_cons.mpr ⟨hr, filledOf_nil⟩⟩⟩
      simp [Twins.plug, Twins.parent, Ctx.plug]
  | @fits l f c s r hroom => exact Frame.filled_attach ((Ctx.same_fixKeys _ s).filled hc) hs hr
  | @inLeft l f c s r right₁ right₂ q w hright hne hroom hparent ih =>
      have hfix := (Ctx.same_fixKeys _ s).filled hc
      rw [Ctx.fixKeys_up] at hfix
      obtain ⟨hsiblings, hupper⟩ := hfix
      dsimp only [Frame.siblings] at hsiblings
      rw [hright] at hsiblings
      simp only [filledOf_append] at hsiblings
      obtain ⟨hleft, hright₁, hright₂⟩ := hsiblings
      have hwhole := ih hupper
        ⟨fun _ => by simp, filledOf_append.mpr ⟨hleft, filledOf_cons.mpr ⟨hs, hright₁⟩⟩⟩
        ⟨fun _ => hne, hright₂⟩
      rw [← w.plug_first] at hwhole
      exact Frame.filled_attach
        ⟨filledOf_append.mpr ⟨hleft, hright₁⟩, (filled_plug.mp hwhole).2⟩ hs hr
  | @inRight l f c s r left₁ left₂ q w hleft hne hroom hparent ih =>
      have hfix := (Ctx.same_fixKeys _ s).filled hc
      rw [Ctx.fixKeys_up] at hfix
      obtain ⟨hsiblings, hupper⟩ := hfix
      dsimp only [Frame.siblings] at hsiblings
      rw [hleft] at hsiblings
      simp only [filledOf_append] at hsiblings
      obtain ⟨⟨hleft₁, hleft₂⟩, hright⟩ := hsiblings
      have hwhole := ih hupper ⟨fun _ => hne, hleft₁⟩
        ⟨fun _ => by simp, filledOf_append.mpr ⟨hleft₂, filledOf_cons.mpr ⟨hs, hright⟩⟩⟩
      rw [← w.plug_second] at hwhole
      exact Frame.filled_attach
        ⟨filledOf_append.mpr ⟨hleft₂, hright⟩, (filled_plug.mp hwhole).2⟩ hs hr

theorem Twins.filled_merge {w : Twins K V l} {s r : Slot K V (l + 1)} (h : Filled (w.plug s r)) :
    Filled ((w.merge s r).plug (join s r)) := by
  obtain ⟨hparent, hctx⟩ := filled_plug.mp h
  rw [filledSlot_node, parent, Slot.entries_node] at hparent
  simp only [filledOf_append, filledOf_cons] at hparent
  obtain ⟨-, hleft, hs, hr, hright⟩ := hparent
  refine filled_plug.mpr ⟨⟨?_, ?_⟩, ?_⟩
  · intro hl
    rw [entries_join]
    exact List.append_ne_nil_of_left_ne_nil (hs.1 hl) _
  · exact filledOf_append.mpr ⟨hs.2, hr.2⟩
  · unfold merge
    split
    · trivial
    · have hframe : (Ctx.up w.frame w.ctx).Filled := ⟨filledOf_append.mpr ⟨hleft, hright⟩, hctx⟩
      exact (Ctx.same_fixKeys _ _).filled hframe

theorem Fork.filled_merge {g : Fork K V l} {s r : Slot K V (l + 1)} (h : Filled (g.plug s r)) :
    Filled ((g.merge s r).plug (join s r)) := by
  induction g with
  | joint w => exact Twins.filled_merge h
  | apart p left key p' key' right g ih =>
      have hparent := ih h
      refine Twins.filled_merge (w := ⟨p, left, key, key', right, _⟩) ?_
      rw [Twins.plug, Twins.parent]
      simpa [join] using hparent

variable [LinearOrder K]

/-- A search tree has no empty branch. -/
theorem Chain.filledOf {trail : Bool} {lo : WithBot K} {es : List (K × Slot K V l)}
    (h : Chain (VSlot l) trail lo es) : FilledOf es := by
  induction l generalizing trail lo with
  | zero => exact fun _ _ => trivial
  | succ l ih =>
      induction es generalizing lo with
      | nil => exact filledOf_nil
      | cons e es ihes =>
          obtain ⟨⟨-, hne, hchain, -⟩, hrest⟩ := h
          exact filledOf_cons.mpr ⟨⟨fun _ => hne, ih hchain⟩, ihes hrest⟩

theorem Valid.filled {r : Root K V} (h : Valid r) : Filled r :=
  ⟨fun hl => h.1.resolve_left hl, h.2.filledOf⟩

end Keep

end Memoria.Lib

import Memoria.Lib.MergeTree

/-!
# Trees of nodes of bounded size

Splitting and merging keep the bound. Both it and the neighbours of a position depend on the siblings
along the path only, and not on the addresses and keys of the path: `Ctx.Same` is that relation.
-/

namespace Memoria.Lib

variable {K V : Type} {l n : Nat}

def SizedSlot (n : Nat) : (l : Nat) → Slot K V l → Prop
  | 0, _ => True
  | l + 1, s => s.entries.length ≤ n ∧ ∀ e ∈ s.entries, SizedSlot n l e.2

def SizedOf (n : Nat) (es : List (K × Slot K V l)) : Prop := ∀ e ∈ es, SizedSlot n l e.2

def Sized (n : Nat) (r : Root K V) : Prop := SizedSlot n (r.1 + 1) r.2

def Ctx.Sized (n : Nat) : {l : Nat} → Ctx K V l → Prop
  | _, .top => True
  | _, .up f c => f.left.length + f.right.length + 1 ≤ n ∧ SizedOf n f.siblings ∧ c.Sized n

@[simp] theorem sizedOf_append {es es' : List (K × Slot K V l)} :
    SizedOf n (es ++ es') ↔ SizedOf n es ∧ SizedOf n es' := by
  simp only [SizedOf, List.mem_append]
  exact ⟨fun h => ⟨fun e he => h e (Or.inl he), fun e he => h e (Or.inr he)⟩,
    fun h e he => he.elim (h.1 e) (h.2 e)⟩

@[simp] theorem sizedOf_cons {e : K × Slot K V l} {es : List (K × Slot K V l)} :
    SizedOf n (e :: es) ↔ SizedSlot n l e.2 ∧ SizedOf n es := by
  simp [SizedOf]

@[simp] theorem sizedOf_nil : SizedOf n ([] : List (K × Slot K V l)) := nofun

theorem sizedSlot_node {s : Slot K V (l + 1)} :
    SizedSlot n (l + 1) s ↔ s.entries.length ≤ n ∧ SizedOf n s.entries := Iff.rfl

theorem sized_plug {c : Ctx K V l} {s : Slot K V (l + 1)} :
    Sized n (c.plug s) ↔ SizedSlot n (l + 1) s ∧ c.Sized n := by
  induction c with
  | top => simp [Ctx.plug, Sized, Ctx.Sized]
  | up f c ih =>
      rw [Ctx.plug, ih, sizedSlot_node, Ctx.Sized, Frame.entries_plug, Frame.siblings]
      simp only [List.length_append, List.length_cons, sizedOf_append, sizedOf_cons, ← Nat.add_assoc]
      tauto

namespace Ctx

def Same : {l : Nat} → Ctx K V l → Ctx K V l → Prop
  | _, .top, .top => True
  | _, .up f c, .up f' c' => f'.left = f.left ∧ f'.right = f.right ∧ Same c c'
  | _, _, _ => False

theorem Same.refl (c : Ctx K V l) : Same c c := by
  induction c with
  | top => trivial
  | up f c ih => exact ⟨rfl, rfl, ih⟩

theorem Same.trans {c c' c'' : Ctx K V l} (h : Same c c') (h' : Same c' c'') : Same c c'' := by
  induction c with
  | top =>
      cases c' with
      | top => exact h'
      | up f' c' => cases h
  | up f c ih =>
      cases c' with
      | top => cases h
      | up f' c' =>
          cases c'' with
          | top => cases h'
          | up f'' c'' => exact ⟨h'.1.trans h.1, h'.2.1.trans h.2.1, ih h.2.2 h'.2.2⟩

theorem Same.symm {c c' : Ctx K V l} (h : Same c c') : Same c' c := by
  induction c with
  | top =>
      cases c' with
      | top => trivial
      | up f' c' => cases h
  | up f c ih =>
      cases c' with
      | top => cases h
      | up f' c' => exact ⟨h.1.symm, h.2.1.symm, ih h.2.2⟩

theorem same_withPath (c : Ctx K V l) (ps : List Nat) : Same c (c.withPath ps) := by
  induction c generalizing ps with
  | top => trivial
  | up f c ih =>
      cases ps with
      | nil => exact Same.refl _
      | cons p ps => exact ⟨rfl, rfl, ih ps⟩

theorem same_fixKeys [Inhabited K] (c : Ctx K V l) (s : Slot K V (l + 1)) :
    Same c (c.fixKeys s) := by
  induction c with
  | top => trivial
  | up f c ih =>
      refine ⟨rfl, rfl, ?_⟩
      split
      · exact ih _
      · exact Same.refl c

theorem Same.sized {c c' : Ctx K V l} (h : Same c c') (hsized : c.Sized n) : c'.Sized n := by
  induction c with
  | top =>
      cases c' with
      | top => trivial
      | up f' c' => cases h
  | up f c ih =>
      cases c' with
      | top => cases h
      | up f' c' =>
          obtain ⟨hleft, hright, hc⟩ := h
          obtain ⟨hsize, hsiblings, hupper⟩ := hsized
          refine ⟨?_, ?_, ih hc hupper⟩
          · rw [hleft, hright]
            exact hsize
          · rw [Frame.siblings, hleft, hright]
            exact hsiblings

theorem Same.length_path {c c' : Ctx K V l} (h : Same c c') : c'.path.length = c.path.length := by
  induction c with
  | top =>
      cases c' with
      | top => rfl
      | up f' c' => cases h
  | up f c ih =>
      cases c' with
      | top => cases h
      | up f' c' => simp [path, ih h.2.2]

theorem Same.trailOf {c c' : Ctx K V l} (h : Same c c') : c'.trailOf = c.trailOf := by
  induction c with
  | top =>
      cases c' with
      | top => rfl
      | up f' c' => cases h
  | up f c ih =>
      cases c' with
      | top => cases h
      | up f' c' => rw [Ctx.trailOf, Ctx.trailOf, h.2.1, ih h.2.2]

theorem Same.leftEdge {c c' : Ctx K V l} (h : Same c c') : c'.LeftEdge ↔ c.LeftEdge := by
  induction c with
  | top =>
      cases c' with
      | top => rfl
      | up f' c' => cases h
  | up f c ih =>
      cases c' with
      | top => cases h
      | up f' c' => rw [LeftEdge, LeftEdge, h.1, ih h.2.2]

end Ctx

theorem Ctx.loOf_withPath (c : Ctx K V l) (ps : List Nat) : (c.withPath ps).loOf = c.loOf := by
  induction c generalizing ps with
  | top => rfl
  | up f c ih =>
      cases ps with
      | nil => rfl
      | cons p ps => rw [withPath, loOf, loOf, ih]

theorem Ctx.trailOf_withPath (c : Ctx K V l) (ps : List Nat) :
    (c.withPath ps).trailOf = c.trailOf := (same_withPath c ps).trailOf

section Order

variable [Inhabited K] [LinearOrder K]

structure Alike (t t' : Slot K V (l + 1)) : Prop where
  chain : ∀ trail lo, Chain (VSlot l) trail lo t'.entries ↔ Chain (VSlot l) trail lo t.entries
  nil : t'.entries = [] ↔ t.entries = []
  last : lastKey t'.entries = lastKey t.entries

theorem Alike.of_entries {t t' : Slot K V (l + 1)} (h : t'.entries = t.entries) : Alike t t' := by
  refine ⟨?_, ?_, ?_⟩ <;> simp [h]

theorem Alike.plug {f g : Frame K V l} {t t' : Slot K V (l + 1)} (h : Alike t t')
    (hleft : g.left = f.left) (hright : g.right = f.right) (hkey : g.key = f.key) :
    Alike (f.plug t) (g.plug t') := by
  refine ⟨?_, ?_, ?_⟩
  · intro trail lo
    rw [Frame.entries_plug, Frame.entries_plug, hleft, hright, hkey, chain_append, chain_append,
      chain_cons, chain_cons, VSlot, VSlot, ne_eq, ne_eq, h.nil, h.chain, h.last]
    rfl
  · simp
  · rw [lastKey_plug, lastKey_plug, hright, hkey]

theorem Ctx.Same.valid_xplug {c c' : Ctx K V l} {t t' : Slot K V (l + 1)} (h : Ctx.Same c c')
    (ht : Alike t t') (hvalid : Valid (c.xplug t)) : Valid (c'.xplug t') := by
  induction c with
  | top =>
      cases c' with
      | up f' c' => cases h
      | top =>
          obtain ⟨hne, hchain⟩ := hvalid
          refine ⟨?_, (ht.chain true ⊥).mpr hchain⟩
          exact hne.imp_right fun hne hnil => hne (ht.nil.mp hnil)
  | up f c ih =>
      cases c' with
      | top => cases h
      | up f' c' =>
          obtain ⟨hleft, hright, hc⟩ := h
          exact ih hc (ht.plug (f := { f with key := lastKey t.entries })
            (g := { f' with key := lastKey t'.entries }) hleft hright ht.last) hvalid

theorem Ctx.keysAt_withPath {c : Ctx K V l} {k : K} (h : c.KeysAt k) (ps : List Nat) :
    (c.withPath ps).KeysAt k := by
  induction c generalizing ps k with
  | top => trivial
  | up f c ih =>
      cases ps with
      | nil => exact h
      | cons p ps =>
          obtain ⟨hkey, hupper⟩ := h
          refine ⟨hkey.imp_right ?_, ih hupper ps⟩
          rintro ⟨htrail, hlo⟩
          refine ⟨?_, ?_⟩
          · rw [trailOf] at htrail ⊢
            rw [trailOf_withPath]
            exact htrail
          · rw [loOf] at hlo ⊢
            rw [loOf_withPath]
            exact hlo

theorem valid_withPath {c : Ctx K V l} {t : Slot K V (l + 1)} (h : Valid (c.plug t)) (p : Nat)
    (ps : List Nat) : Valid ((c.withPath ps).plug (.node p t.entries)) := by
  obtain ⟨hx, hkeys⟩ := (valid_plug_iff c t).mp h
  have halike : Alike t (.node p t.entries) := .of_entries rfl
  exact (valid_plug_iff _ _).mpr
    ⟨(Ctx.same_withPath c ps).valid_xplug halike hx, Ctx.keysAt_withPath hkeys ps⟩

end Order

structure Fork.Same (g g' : Fork K V l) : Prop where
  atRoot : g'.AtRoot ↔ g.AtRoot
  canMerge : ∀ {n : Nat} {s s' r r' : Slot K V (l + 1)}, s'.entries.length = s.entries.length →
    r'.entries.length = r.entries.length → (g'.CanMerge n s' r' ↔ g.CanMerge n s r)

theorem Fork.Same.joint {w w' : Twins K V l} (h : w'.ctx.path.length = w.ctx.path.length) :
    Fork.Same (.joint w) (.joint w') := by
  refine ⟨?_, ?_⟩
  · simp only [AtRoot, ← List.length_eq_zero_iff, h]
  · intro n s s' r r' hs hr
    rw [CanMerge, CanMerge, hs, hr]

theorem Fork.Same.apart {p q p' q' : Nat} {key k key' k' : K}
    {left right : List (K × Slot K V (l + 1))} {g g' : Fork K V (l + 1)} (h : Fork.Same g g') :
    Fork.Same (.apart p left key p' key' right g) (.apart q left k q' k' right g') := by
  refine ⟨h.atRoot, ?_⟩
  intro n s s' r r' hs hr
  rw [CanMerge, CanMerge, hs, hr, h.canMerge] <;> simp

theorem Fork.Same.refl (g : Fork K V l) : Fork.Same g g := by
  induction g with
  | joint w => exact .joint rfl
  | apart p left key p' key' right g ih => exact ih.apart

/-- The next node is the same one in both contexts, and on the same path if the paths are. -/
theorem Ctx.Same.first {c' : Ctx K V l} {g : Fork K V l} {r : Slot K V (l + 1)}
    (h : Ctx.Same (g.first r) c') :
    ∃ g', g'.first r = c' ∧ Fork.Same g g' ∧ (g'.path = g.path → g'.path' = g.path') := by
  induction g with
  | joint w =>
      cases c' with
      | top => cases h
      | up f' c' =>
          obtain ⟨hleft, hright, hc⟩ := h
          refine ⟨.joint ⟨f'.addr, f'.left, f'.key, w.key', w.right, c'⟩, ?_,
            .joint hc.length_path, id⟩
          rw [Fork.first, Twins.first]
          dsimp only at hright ⊢
          rw [← hright]
  | apart p left key p' key' right g ih =>
      cases c' with
      | top => cases h
      | up f' c' =>
          obtain ⟨hleft, hright, hc⟩ := h
          obtain ⟨g', hg', hsame, hpath⟩ := ih hc
          obtain ⟨a, left', key'', right'⟩ := f'
          dsimp only at hleft hright
          subst hleft hright
          refine ⟨.apart a _ key'' p' key' right g', ?_, hsame.apart, fun heq => ?_⟩
          · rw [Fork.first, hg']
          · exact congrArg (List.cons _) (hpath (List.cons.inj heq).2)

theorem Ctx.Same.second {c' : Ctx K V l} {g : Fork K V l} {s : Slot K V (l + 1)}
    (h : Ctx.Same (g.second s) c') :
    ∃ g', g'.second s = c' ∧ Fork.Same g g' ∧ (g'.path' = g.path' → g'.path = g.path) := by
  induction g with
  | joint w =>
      cases c' with
      | top => cases h
      | up f' c' =>
          obtain ⟨hleft, hright, hc⟩ := h
          refine ⟨.joint ⟨f'.addr, w.left, w.key, f'.key, f'.right, c'⟩, ?_,
            .joint hc.length_path, id⟩
          rw [Fork.second, Twins.second]
          dsimp only at hleft ⊢
          rw [← hleft]
  | apart p left key p' key' right g ih =>
      cases c' with
      | top => cases h
      | up f' c' =>
          obtain ⟨hleft, hright, hc⟩ := h
          obtain ⟨g', hg', hsame, hpath⟩ := ih hc
          obtain ⟨a, left', key'', right'⟩ := f'
          dsimp only at hleft hright
          subst hleft hright
          refine ⟨.apart p left key a key'' _ g', ?_, hsame.apart, fun heq => ?_⟩
          · rw [Fork.second, hg']
          · exact congrArg (List.cons _) (hpath (List.cons.inj heq).2)

section Keep

variable [Inhabited K]

theorem Ctx.sized_fixKeys {c : Ctx K V l} (h : c.Sized n) (s : Slot K V (l + 1)) :
    (c.fixKeys s).Sized n := (same_fixKeys c s).sized h

theorem Frame.sized_attach {f : Frame K V l} {c : Ctx K V (l + 1)} {s r : Slot K V (l + 1)}
    (hroom : f.left.length + f.right.length + 1 < n) (h : (Ctx.up f c).Sized n)
    (hs : SizedSlot n (l + 1) s) (hr : SizedSlot n (l + 1) r) :
    Sized n ((f.attach c s r).plug s r) := by
  obtain ⟨-, hsiblings, hc⟩ := h
  rw [siblings, sizedOf_append] at hsiblings
  have hparent : SizedSlot n (l + 2) ((f.attach c s r).parent s r) := by
    rw [sizedSlot_node, Twins.parent, Slot.entries_node]
    simp only [attach, sizedOf_append, sizedOf_cons, List.length_append, List.length_cons]
    exact ⟨by omega, hsiblings.1, hs, hr, hsiblings.2⟩
  refine sized_plug.mpr ⟨hparent, ?_⟩
  unfold attach
  dsimp only
  split
  · exact Ctx.sized_fixKeys hc _
  · exact hc

theorem Grown.sized {c : Ctx K V l} {s r : Slot K V (l + 1)} {w : Twins K V l}
    (h : Grown n c s r w) (hn : 2 ≤ n) (hc : c.Sized n) (hs : SizedSlot n (l + 1) s)
    (hr : SizedSlot n (l + 1) r) : Sized n (w.plug s r) := by
  induction h with
  | @root l s r p =>
      refine ⟨hn, ?_⟩
      exact sizedOf_cons.mpr ⟨hs, sizedOf_cons.mpr ⟨hr, sizedOf_nil⟩⟩
  | @fits l f c s r hroom =>
      exact Frame.sized_attach hroom (Ctx.sized_fixKeys hc s) hs hr
  | @inLeft l f c s r right₁ right₂ q w hright hne hroom hparent ih =>
      have hfix := Ctx.sized_fixKeys hc s
      rw [Ctx.fixKeys_up] at hfix
      obtain ⟨hsize, hsiblings, hupper⟩ := hfix
      dsimp only [Frame.siblings] at hsize hsiblings
      rw [hright] at hsize hsiblings
      simp only [List.length_append, sizedOf_append] at hsize hsiblings
      obtain ⟨hleft, hright₁, hright₂⟩ := hsiblings
      have hwhole := ih hupper
        ⟨by simp only [Slot.entries_node, List.length_append, List.length_cons]; omega,
          sizedOf_append.mpr ⟨hleft, sizedOf_cons.mpr ⟨hs, hright₁⟩⟩⟩
        ⟨by rw [Slot.entries_node]; omega, hright₂⟩
      rw [← w.plug_first] at hwhole
      have hfirst := sized_plug.mp hwhole
      refine Frame.sized_attach hroom ⟨by dsimp only; omega, ?_, hfirst.2⟩ hs hr
      exact sizedOf_append.mpr ⟨hleft, hright₁⟩
  | @inRight l f c s r left₁ left₂ q w hleft hne hroom hparent ih =>
      have hfix := Ctx.sized_fixKeys hc s
      rw [Ctx.fixKeys_up] at hfix
      obtain ⟨hsize, hsiblings, hupper⟩ := hfix
      dsimp only [Frame.siblings] at hsize hsiblings
      rw [hleft] at hsize hsiblings
      simp only [List.length_append, sizedOf_append] at hsize hsiblings
      obtain ⟨⟨hleft₁, hleft₂⟩, hright⟩ := hsiblings
      have hwhole := ih hupper ⟨by rw [Slot.entries_node]; omega, hleft₁⟩
        ⟨by simp only [Slot.entries_node, List.length_append, List.length_cons]; omega,
          sizedOf_append.mpr ⟨hleft₂, sizedOf_cons.mpr ⟨hs, hright⟩⟩⟩
      rw [← w.plug_second] at hwhole
      have hsecond := sized_plug.mp hwhole
      refine Frame.sized_attach hroom ⟨by dsimp only; omega, ?_, hsecond.2⟩ hs hr
      exact sizedOf_append.mpr ⟨hleft₂, hright⟩

theorem Twins.sized_merge {w : Twins K V l} {s r : Slot K V (l + 1)} (h : Sized n (w.plug s r))
    (hsize : s.entries.length + r.entries.length ≤ n) :
    Sized n ((w.merge s r).plug (join s r)) := by
  obtain ⟨hparent, hctx⟩ := sized_plug.mp h
  rw [sizedSlot_node, parent, Slot.entries_node] at hparent
  simp only [sizedOf_append, sizedOf_cons, List.length_append, List.length_cons] at hparent
  obtain ⟨hlen, hleft, hs, hr, hright⟩ := hparent
  refine sized_plug.mpr ⟨⟨?_, ?_⟩, ?_⟩
  · rw [entries_join, List.length_append]
    exact hsize
  · exact sizedOf_append.mpr ⟨hs.2, hr.2⟩
  · unfold merge
    split
    · trivial
    · have hframe : (Ctx.up w.frame w.ctx).Sized n := by
        refine ⟨?_, sizedOf_append.mpr ⟨hleft, hright⟩, hctx⟩
        dsimp only [frame]
        omega
      exact Ctx.sized_fixKeys hframe _

theorem Fork.sized_merge {g : Fork K V l} {s r : Slot K V (l + 1)} (h : Sized n (g.plug s r))
    (hmerge : g.CanMerge n s r) : Sized n ((g.merge s r).plug (join s r)) := by
  induction g with
  | joint w => exact Twins.sized_merge h hmerge
  | apart p left key p' key' right g ih =>
      have hparent := ih h hmerge.2
      refine Twins.sized_merge (w := ⟨p, left, key, key', right, _⟩) ?_ hmerge.1
      rw [Twins.plug, Twins.parent]
      simpa [join] using hparent

end Keep

end Memoria.Lib

import Memoria.Lib.OrderedTree

/-!
# Splitting a node of a search tree

A node is replaced by two neighbours. Their parent takes the new one in if it has room, and is
itself split first if it has not; `Grown` is the relation between the position of the node before and
the position of the two neighbours after.
-/

namespace Memoria.Lib

variable {K V : Type} {l : Nat}

structure Twins (K V : Type) (l : Nat) where
  addr : Nat
  left : List (K × Slot K V (l + 1))
  key : K
  key' : K
  right : List (K × Slot K V (l + 1))
  ctx : Ctx K V (l + 1)

namespace Twins

def parent (w : Twins K V l) (s r : Slot K V (l + 1)) : Slot K V (l + 2) :=
  .node w.addr (w.left ++ (w.key, s) :: (w.key', r) :: w.right)

def first (w : Twins K V l) (r : Slot K V (l + 1)) : Ctx K V l :=
  .up ⟨w.addr, w.left, w.key, (w.key', r) :: w.right⟩ w.ctx

def second (w : Twins K V l) (s : Slot K V (l + 1)) : Ctx K V l :=
  .up ⟨w.addr, w.left ++ [(w.key, s)], w.key', w.right⟩ w.ctx

def plug (w : Twins K V l) (s r : Slot K V (l + 1)) : Root K V := w.ctx.plug (w.parent s r)

theorem plug_first (w : Twins K V l) (s r : Slot K V (l + 1)) :
    (w.first r).plug s = w.plug s r := rfl

theorem plug_second (w : Twins K V l) (s r : Slot K V (l + 1)) :
    (w.second s).plug r = w.plug s r := by
  simp [second, plug, parent, Ctx.plug, Frame.plug]

@[simp] theorem path_first (w : Twins K V l) (r : Slot K V (l + 1)) :
    (w.first r).path = w.addr :: w.ctx.path := rfl

@[simp] theorem path_second (w : Twins K V l) (s : Slot K V (l + 1)) :
    (w.second s).path = w.addr :: w.ctx.path := rfl

def before (w : Twins K V l) : List (K × V) := w.ctx.before ++ flatOf w.left

def after (w : Twins K V l) : List (K × V) := flatOf w.right ++ w.ctx.after

theorem flatRoot_plug (w : Twins K V l) (s r : Slot K V (l + 1)) :
    flatRoot (w.plug s r) = w.before ++ (flatOf s.entries ++ flatOf r.entries) ++ w.after := by
  rw [plug, Lib.flatRoot_plug, parent, Slot.entries_node]
  simp [before, after, flat_succ]

end Twins

variable [Inhabited K]

def Ctx.above (f : Frame K V l) (c : Ctx K V (l + 1)) (s : Slot K V (l + 1)) : Ctx K V (l + 1) :=
  if f.right.isEmpty then c.fixKeys (Frame.plug { f with key := lastKey s.entries } s) else c

def Frame.attach (f : Frame K V l) (c : Ctx K V (l + 1)) (s r : Slot K V (l + 1)) : Twins K V l where
  addr := f.addr
  left := f.left
  key := f.key
  key' := lastKey r.entries
  right := f.right
  ctx := if f.right.isEmpty then
      c.fixKeys (Frame.plug { f with right := [(lastKey r.entries, r)] } s)
    else
      c

inductive Grown (n : Nat) : {l : Nat} → Ctx K V l → Slot K V (l + 1) → Slot K V (l + 1) →
    Twins K V l → Prop
  | root {l : Nat} {s r : Slot K V (l + 1)} (p : Nat) :
      Grown n .top s r ⟨p, [], lastKey s.entries, lastKey r.entries, [], .top⟩
  | fits {l : Nat} {f : Frame K V l} {c : Ctx K V (l + 1)} {s r : Slot K V (l + 1)}
      (hroom : f.left.length + f.right.length + 1 < n) :
      Grown n (.up f c) s r
        (Frame.attach { f with key := lastKey s.entries } (Ctx.above f c s) s r)
  | inLeft {l : Nat} {f : Frame K V l} {c : Ctx K V (l + 1)} {s r : Slot K V (l + 1)}
      {right₁ right₂ : List (K × Slot K V (l + 1))} {q : Nat} {w : Twins K V (l + 1)}
      (hright : f.right = right₁ ++ right₂) (hne : right₂ ≠ [])
      (hroom : f.left.length + right₁.length + 1 < n)
      (hparent : Grown n (Ctx.above f c s)
        (.node f.addr (f.left ++ (lastKey s.entries, s) :: right₁)) (.node q right₂) w) :
      Grown n (.up f c) s r
        (Frame.attach ⟨f.addr, f.left, lastKey s.entries, right₁⟩ (w.first (.node q right₂)) s r)
  | inRight {l : Nat} {f : Frame K V l} {c : Ctx K V (l + 1)} {s r : Slot K V (l + 1)}
      {left₁ left₂ : List (K × Slot K V (l + 1))} {q : Nat} {w : Twins K V (l + 1)}
      (hleft : f.left = left₁ ++ left₂) (hne : left₁ ≠ [])
      (hroom : left₂.length + f.right.length + 1 < n)
      (hparent : Grown n (Ctx.above f c s) (.node f.addr left₁)
        (.node q (left₂ ++ (lastKey s.entries, s) :: f.right)) w) :
      Grown n (.up f c) s r
        (Frame.attach ⟨q, left₂, lastKey s.entries, f.right⟩ (w.second (.node f.addr left₁)) s r)

section Above

variable (f : Frame K V l) (c : Ctx K V (l + 1)) (s r : Slot K V (l + 1))

theorem Ctx.fixKeys_up : (Ctx.up f c).fixKeys s
    = .up { f with key := lastKey s.entries } (above f c s) := rfl

@[simp] theorem Ctx.path_above : (above f c s).path = c.path := by
  unfold above
  split <;> simp

@[simp] theorem Ctx.before_above : (above f c s).before = c.before := by
  unfold above
  split <;> simp

@[simp] theorem Ctx.after_above : (above f c s).after = c.after := by
  unfold above
  split <;> simp

@[simp] theorem Ctx.xplug_above (t : Slot K V (l + 2)) : (above f c s).xplug t = c.xplug t := by
  unfold above
  split <;> simp

theorem Frame.path_attach : (f.attach c s r).ctx.path = c.path := by
  unfold attach
  dsimp only
  split <;> simp

@[simp] theorem Ctx.trailOf_above : (above f c s).trailOf = c.trailOf := by
  unfold above
  split <;> simp

@[simp] theorem Ctx.loOf_above : (above f c s).loOf = c.loOf := by
  unfold above
  split <;> simp

theorem Frame.trailOf_attach : (f.attach c s r).ctx.trailOf = c.trailOf := by
  unfold attach
  dsimp only
  split <;> simp

theorem Frame.loOf_attach : (f.attach c s r).ctx.loOf = c.loOf := by
  unfold attach
  dsimp only
  split <;> simp

theorem Frame.before_attach : (f.attach c s r).before = c.before ++ flatOf f.left := by
  unfold attach Twins.before
  dsimp only
  split <;> simp

theorem Frame.after_attach : (f.attach c s r).after = flatOf f.right ++ c.after := by
  unfold attach Twins.after
  dsimp only
  split <;> simp

theorem Frame.xplug_attach (t : Slot K V (l + 2)) :
    (f.attach c s r).ctx.xplug t = c.xplug t := by
  unfold attach
  dsimp only
  split <;> simp

end Above

variable {n : Nat}

theorem Grown.before_after {c : Ctx K V l} {s r : Slot K V (l + 1)} {w : Twins K V l}
    (h : Grown n c s r w) : w.before = c.before ∧ w.after = c.after := by
  induction h with
  | root p => exact ⟨rfl, rfl⟩
  | fits hroom =>
      rw [Frame.before_attach, Frame.after_attach, Ctx.before_above, Ctx.after_above]
      exact ⟨rfl, rfl⟩
  | @inLeft l f c s r right₁ right₂ q w hright hne hroom hparent ih =>
      obtain ⟨hbefore, hafter⟩ := ih
      rw [Ctx.before_above] at hbefore
      rw [Ctx.after_above] at hafter
      rw [Frame.before_attach, Frame.after_attach]
      refine ⟨?_, ?_⟩
      · rw [Ctx.before, ← hbefore]
        rfl
      · rw [Ctx.after, ← hafter, hright]
        simp [Twins.first, Twins.after, Ctx.after, flat_succ]
  | @inRight l f c s r left₁ left₂ q w hleft hne hroom hparent ih =>
      obtain ⟨hbefore, hafter⟩ := ih
      rw [Ctx.before_above] at hbefore
      rw [Ctx.after_above] at hafter
      rw [Frame.before_attach, Frame.after_attach]
      refine ⟨?_, ?_⟩
      · rw [Ctx.before, ← hbefore, hleft]
        simp [Twins.second, Twins.before, Ctx.before, flat_succ]
      · rw [Ctx.after, ← hafter]
        rfl

variable [LinearOrder K]

theorem Ctx.Loose.fixKeys {f : Frame K V l} {c : Ctx K V (l + 1)} (h : (Ctx.up f c).Loose)
    (s : Slot K V (l + 1)) :
    (Ctx.up { f with key := lastKey s.entries } (above f c s)).Loose ∧ (above f c s).Loose := by
  have hkeys := keysAt_fixKeys h s
  rw [fixKeys_up] at hkeys
  exact ⟨hkeys.loose, hkeys.2.loose⟩

theorem Frame.keysAt_attach {f : Frame K V l} {c : Ctx K V (l + 1)} (h : (Ctx.up f c).Loose)
    (s r : Slot K V (l + 1)) :
    (f.attach c s r).ctx.KeysAt (lastKey ((lastKey r.entries, r) :: f.right)) := by
  unfold Ctx.Loose at h
  unfold attach
  dsimp only
  split
  · rename_i hempty
    rw [if_pos hempty] at h
    rw [List.isEmpty_iff] at hempty
    have hkeys := Ctx.keysAt_fixKeys h (Frame.plug { f with right := [(lastKey r.entries, r)] } s)
    rw [lastKey_plug] at hkeys
    rw [hempty]
    exact hkeys
  · rename_i hempty
    rw [if_neg hempty] at h
    rw [List.isEmpty_iff] at hempty
    rw [← List.singleton_append, lastKey_append_of_ne_nil _ hempty]
    exact h

/-- The keys for the new nodes are their last ones. -/
theorem Grown.keys {c : Ctx K V l} {s r : Slot K V (l + 1)} {w : Twins K V l} (h : Grown n c s r w)
    (hloose : c.Loose) : w.key = lastKey s.entries ∧ w.key' = lastKey r.entries ∧
      w.ctx.KeysAt (lastKey ((w.key', r) :: w.right)) := by
  induction h with
  | root p => exact ⟨rfl, rfl, trivial⟩
  | @fits l f c s r hroom => exact ⟨rfl, rfl, Frame.keysAt_attach (hloose.fixKeys s).1 s r⟩
  | @inLeft l f c s r right₁ right₂ q w hright hne hroom hparent ih =>
      obtain ⟨hkey, hkey', hkeys⟩ := ih (hloose.fixKeys s).2
      rw [Slot.entries_node] at hkey hkey'
      refine ⟨rfl, rfl, Frame.keysAt_attach ?_ s r⟩
      unfold Ctx.Loose
      split
      · exact hkeys
      · rename_i hempty
        have hempty' : right₁ ≠ [] := fun heq => hempty (by simp [heq])
        rw [← List.singleton_append, ← List.append_assoc,
          lastKey_append_of_ne_nil _ hempty'] at hkey
        exact ⟨Or.inl hkey, hkeys⟩
  | @inRight l f c s r left₁ left₂ q w hleft hne hroom hparent ih =>
      obtain ⟨hkey, hkey', hkeys⟩ := ih (hloose.fixKeys s).2
      rw [Slot.entries_node] at hkey hkey'
      have hsecond : (w.second (.node f.addr left₁)).KeysAt w.key' := by
        refine ⟨Or.inl rfl, ?_⟩
        dsimp only
        split
        · rename_i hempty
          rw [List.isEmpty_iff] at hempty
          rw [hempty] at hkeys
          exact hkeys
        · rename_i hempty
          rw [List.isEmpty_iff] at hempty
          rw [← List.singleton_append, lastKey_append_of_ne_nil _ hempty] at hkeys
          exact hkeys
      refine ⟨rfl, rfl, Frame.keysAt_attach ?_ s r⟩
      unfold Ctx.Loose
      split
      · exact hsecond.loose
      · rename_i hempty
        have hempty' : f.right ≠ [] := fun heq => hempty (by simp [heq])
        rw [← List.singleton_append, ← List.append_assoc,
          lastKey_append_of_ne_nil _ hempty'] at hkey'
        rw [hkey'] at hsecond
        exact hsecond

/-- The neighbours have the bounds that the node had. -/
theorem Grown.bounds {c : Ctx K V l} {s r : Slot K V (l + 1)} {w : Twins K V l}
    (h : Grown n c s r w) (hloose : c.Loose) :
    lastOr w.ctx.loOf w.left = c.loOf ∧ (w.ctx.trailOf && w.right.isEmpty) = c.trailOf := by
  induction h with
  | root p => exact ⟨rfl, rfl⟩
  | @fits l f c s r hroom =>
      rw [Frame.loOf_attach, Frame.trailOf_attach, Ctx.loOf_above, Ctx.trailOf_above]
      exact ⟨rfl, rfl⟩
  | @inLeft l f c s r right₁ right₂ q w hright hne hroom hparent ih =>
      obtain ⟨hlo, -⟩ := ih (hloose.fixKeys s).2
      rw [Frame.loOf_attach, Frame.trailOf_attach]
      refine ⟨?_, ?_⟩
      · rw [Ctx.loOf_above] at hlo
        rw [Ctx.loOf, ← hlo]
        rfl
      · rw [Ctx.trailOf, hright]
        simp [Twins.first, Ctx.trailOf, hne]
  | @inRight l f c s r left₁ left₂ q w hleft hne hroom hparent ih =>
      obtain ⟨-, htrail⟩ := ih (hloose.fixKeys s).2
      obtain ⟨hkey, -, -⟩ := hparent.keys (hloose.fixKeys s).2
      rw [Ctx.trailOf_above] at htrail
      rw [Frame.loOf_attach, Frame.trailOf_attach]
      refine ⟨?_, ?_⟩
      · rw [Ctx.loOf, hleft, lastOr_append, lastOr_of_ne_nil hne]
        simp only [Twins.second, Ctx.loOf, lastOr_append, lastOr_cons, lastOr_nil, hkey]
        rfl
      · rw [Ctx.trailOf, ← htrail]
        rfl

/-- One entry cut in two. -/
theorem Chain.cut {trail : Bool} {lo : WithBot K} {a b : Nat} {left right : List (K × Slot K V l)}
    {es : List (K × Slot K V (l + 1))} (hleft : left ≠ []) (hright : right ≠ [])
    (h : Chain (VSlot (l + 1)) trail lo
      ((lastKey (left ++ right), .node a (left ++ right)) :: es)) :
    Chain (VSlot (l + 1)) trail lo
      ((lastKey left, .node a left) :: (lastKey right, .node b right) :: es) := by
  obtain ⟨⟨hlt, hne, hchain, hexact⟩, hrest⟩ := h
  rw [Slot.entries_node, chain_append, lastOr_of_ne_nil hleft] at hchain
  have hempty : right.isEmpty = false := by simpa using hright
  rw [hempty, Bool.and_false] at hchain
  obtain ⟨hchain, hchain'⟩ := hchain
  rw [lastKey_append_of_ne_nil _ hright] at hrest
  refine ⟨⟨hchain.lt_lastKey hleft, hleft, ?_, fun _ => rfl⟩,
    ⟨hchain'.lt_lastKey hright, hright, hchain', fun _ => rfl⟩, hrest⟩
  rw [List.isEmpty_cons, Bool.and_false]
  exact hchain

theorem cut_frame {f : Frame K V l} {c : Ctx K V (l + 1)} {a b : Nat}
    {left right : List (K × Slot K V l)} (hleft : left ≠ []) (hright : right ≠ [])
    (hvalid : Valid ((Ctx.up f c).xplug (.node a (left ++ right)))) :
    Valid (c.xplug (.node f.addr (f.left ++ (lastKey left, .node a left) ::
      (lastKey right, .node b right) :: f.right))) := by
  have hparent := (Valid.chain_at (c := c) hvalid).1
  rw [Frame.entries_plug, chain_append] at hparent
  refine Valid.replace (c := c) hvalid (by simp) ?_ ?_
  · rw [Slot.entries_node, chain_append]
    exact ⟨hparent.1, hparent.2.cut hleft hright⟩
  · intro _
    rw [lastKey_plug, Slot.entries_node, lastKey_append_cons]
    split
    · rename_i hempty
      rw [List.isEmpty_iff] at hempty
      rw [hempty, Slot.entries_node, lastKey_append_of_ne_nil _ hright]
      exact le_rfl
    · rename_i hempty
      rw [List.isEmpty_iff] at hempty
      have hlast := lastKey_append_of_ne_nil
        [(lastKey left, Slot.node a left), (lastKey right, Slot.node b right)] hempty
      exact le_of_eq hlast

/-- Splitting keeps the tree in order, for any two halves of the node at the position. -/
theorem Grown.valid {c : Ctx K V l} {s r : Slot K V (l + 1)} {w : Twins K V l} (h : Grown n c s r w)
    (hloose : c.Loose) {left right : List (K × Slot K V l)} (hleft : left ≠ [])
    (hright : right ≠ []) (hvalid : Valid (c.xplug (.node s.addr (left ++ right)))) :
    Valid (w.ctx.xplug (.node w.addr (w.left ++ (lastKey left, .node s.addr left) ::
      (lastKey right, .node r.addr right) :: w.right))) := by
  induction h with
  | @root l s r p =>
      have hchain : Chain (VSlot l) true ⊥ (left ++ right) := hvalid.2
      have hne : left ++ right ≠ [] := by simp [hleft]
      refine ⟨Or.inr (List.cons_ne_nil _ _), Chain.cut hleft hright ?_⟩
      exact ⟨⟨hchain.lt_lastKey hne, hne, hchain, fun _ => rfl⟩, trivial⟩
  | @fits l f c s r hroom =>
      rw [Frame.xplug_attach, Ctx.xplug_above]
      exact cut_frame hleft hright hvalid
  | @inLeft l f c s r right₁ right₂ q w hr hne hroom hparent ih =>
      rw [Frame.xplug_attach]
      have hwhole : Valid ((Ctx.above f c s).xplug (.node f.addr
          ((f.left ++ (lastKey (left ++ right), .node s.addr (left ++ right)) :: right₁)
            ++ right₂))) := by
        rw [Ctx.xplug_above, List.append_assoc, List.cons_append, ← hr]
        exact hvalid
      have hsplit := ih (hloose.fixKeys s).2 (by simp) hne hwhole
      rw [← show w.key' = lastKey right₂ from (hparent.keys (hloose.fixKeys s).2).2.1] at hsplit
      exact cut_frame (c := w.first (.node q right₂)) (f := ⟨f.addr, f.left, f.key, right₁⟩)
        hleft hright hsplit
  | @inRight l f c s r left₁ left₂ q w hl hne hroom hparent ih =>
      rw [Frame.xplug_attach]
      have hwhole : Valid ((Ctx.above f c s).xplug (.node f.addr
          (left₁ ++ (left₂ ++
            (lastKey (left ++ right), .node s.addr (left ++ right)) :: f.right)))) := by
        rw [Ctx.xplug_above, ← List.append_assoc, ← hl]
        exact hvalid
      have hsplit := ih (hloose.fixKeys s).2 hne (by simp) hwhole
      rw [← show w.key = lastKey left₁ from (hparent.keys (hloose.fixKeys s).2).1,
        ← List.singleton_append, ← List.append_assoc] at hsplit
      exact cut_frame (c := w.second (.node f.addr left₁)) (f := ⟨q, left₂, f.key, f.right⟩)
        hleft hright hsplit

theorem Grown.valid_plug {c : Ctx K V l} {s r : Slot K V (l + 1)} {w : Twins K V l}
    (h : Grown n c s r w) (hs : s.entries ≠ []) (hr : r.entries ≠ [])
    (hvalid : Valid (c.plug (.node s.addr (s.entries ++ r.entries)))) : Valid (w.plug s r) := by
  obtain ⟨hx, hkeys⟩ := (valid_plug_iff c _).mp hvalid
  obtain ⟨hkey, hkey', hupper⟩ := h.keys hkeys.loose
  have hgrown := h.valid hkeys.loose hs hr hx
  rw [← hkey'] at hgrown
  rw [← w.plug_first]
  exact (valid_plug_iff (w.first r) s).mpr ⟨hgrown, Or.inl hkey, hupper⟩

end Memoria.Lib

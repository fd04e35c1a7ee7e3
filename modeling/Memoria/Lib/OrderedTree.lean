import Mathlib.Order.WithBot
import Memoria.Lib.LevelTree
import Memoria.Lib.SortedList

/-!
# Search trees of uniform height

A branch keeps for every child the greatest key below it, except that the last child of the last
node of a level may have outgrown its key: such a key on the right edge of the tree, a trailing key,
only separates the child from what is left of it. `Chain` says this of a list of entries, from the
lower bound `lo` on and with the flag `trail` for the right edge.

A position in a valid tree is described by three independent things: the siblings along its path
(`xplug`, which fills in the keys of the path), the keys of the path (`KeysAt`), and the node itself.
-/

namespace Memoria.Lib

variable {K V : Type} {l : Nat}

section Chain

variable {S : Type}

def Chain (P : Bool → WithBot K → K × S → Prop) (trail : Bool) : WithBot K → List (K × S) → Prop
  | _, [] => True
  | lo, e :: es => P (trail && es.isEmpty) lo e ∧ Chain P trail e.1 es

def lastOr : WithBot K → List (K × S) → WithBot K
  | lo, [] => lo
  | _, e :: es => lastOr e.1 es

variable {P : Bool → WithBot K → K × S → Prop} {trail : Bool} {lo : WithBot K}

@[simp] theorem lastOr_nil : lastOr lo ([] : List (K × S)) = lo := rfl

@[simp] theorem lastOr_cons (e : K × S) (es : List (K × S)) :
    lastOr lo (e :: es) = lastOr e.1 es := rfl

theorem lastOr_append (es es' : List (K × S)) :
    lastOr lo (es ++ es') = lastOr (lastOr lo es) es' := by
  induction es generalizing lo with
  | nil => rfl
  | cons e es ih => exact ih

theorem lastOr_of_ne_nil [Inhabited K] {es : List (K × S)} (hne : es ≠ []) :
    lastOr lo es = lastKey es := by
  induction es generalizing lo with
  | nil => exact absurd rfl hne
  | cons e es ih =>
      cases es with
      | nil => rfl
      | cons d es =>
          rw [lastOr_cons, ih (by simp)]
          exact congrArg _ (lastKey_append_cons [e] es d).symm

@[simp] theorem chain_nil : Chain P trail lo [] := trivial

theorem chain_cons {e : K × S} {es : List (K × S)} :
    Chain P trail lo (e :: es) ↔ P (trail && es.isEmpty) lo e ∧ Chain P trail e.1 es := Iff.rfl

theorem chain_append {es es' : List (K × S)} :
    Chain P trail lo (es ++ es') ↔
      Chain P (trail && es'.isEmpty) lo es ∧ Chain P trail (lastOr lo es) es' := by
  induction es generalizing lo with
  | nil => simp
  | cons e es ih =>
      have hempty : (es ++ es').isEmpty = (es'.isEmpty && es.isEmpty) := by
        cases es <;> cases es' <;> rfl
      rw [List.cons_append, chain_cons, chain_cons, ih, hempty, lastOr_cons, Bool.and_assoc,
        and_assoc]

end Chain

section Positions

variable [Inhabited K]

namespace Ctx

def loOf : {l : Nat} → Ctx K V l → WithBot K
  | _, top => ⊥
  | _, up f c => lastOr c.loOf f.left

def trailOf : {l : Nat} → Ctx K V l → Bool
  | _, top => true
  | _, up f c => c.trailOf && f.right.isEmpty

def xplug : {l : Nat} → Ctx K V l → Slot K V (l + 1) → Root K V
  | l, top, t => ⟨l, t⟩
  | _, up f c, t => c.xplug ({ f with key := lastKey t.entries }.plug t)

@[simp] theorem loOf_fixKeys (c : Ctx K V l) (t : Slot K V (l + 1)) :
    (c.fixKeys t).loOf = c.loOf := by
  induction c with
  | top => rfl
  | up f c ih =>
      simp only [fixKeys, loOf]
      split
      · rw [ih]
      · rfl

@[simp] theorem trailOf_fixKeys (c : Ctx K V l) (t : Slot K V (l + 1)) :
    (c.fixKeys t).trailOf = c.trailOf := by
  induction c with
  | top => rfl
  | up f c ih =>
      simp only [fixKeys, trailOf]
      split
      · rw [ih]
      · rfl

@[simp] theorem xplug_fixKeys (c : Ctx K V l) (t t' : Slot K V (l + 1)) :
    (c.fixKeys t).xplug t' = c.xplug t' := by
  induction c with
  | top => rfl
  | up f c ih =>
      simp only [fixKeys, xplug]
      split
      · rw [ih]
      · rfl

end Ctx

theorem lastKey_plug (f : Frame K V l) (t : Slot K V (l + 1)) :
    lastKey (f.plug t).entries = if f.right.isEmpty then f.key else lastKey f.right := by
  rw [Frame.entries_plug]
  split
  · rename_i hempty
    rw [List.isEmpty_iff] at hempty
    rw [hempty, lastKey_concat]
  · rename_i hempty
    rw [List.isEmpty_iff] at hempty
    rw [← List.singleton_append, ← List.append_assoc, lastKey_append_of_ne_nil _ hempty]

end Positions

variable [LinearOrder K] [Inhabited K]

/-- A well-formed entry of a node at level `l`: its key is above `lo`, and it is the greatest key
below unless the entry is on the right edge. -/
def VSlot : (l : Nat) → Bool → WithBot K → K × Slot K V l → Prop
  | 0, _, lo, e => lo < e.1
  | l + 1, trail, lo, e => lo < e.1 ∧ e.2.entries ≠ [] ∧ Chain (VSlot l) trail lo e.2.entries ∧
      (trail = false → lastKey e.2.entries = e.1)

def Valid (r : Root K V) : Prop :=
  (r.1 = 0 ∨ r.2.entries ≠ []) ∧ Chain (VSlot r.1) true ⊥ r.2.entries

section Bounds

variable {trail : Bool} {lo lo' : WithBot K}

theorem VSlot.lt {e : K × Slot K V l} (h : VSlot l trail lo e) : lo < e.1 := by
  cases l with
  | zero => exact h
  | succ l => exact h.1

theorem VSlot.mono {e : K × Slot K V l} (h : VSlot l trail lo e) (hle : lo' ≤ lo) :
    VSlot l trail lo' e := by
  induction l generalizing trail with
  | zero => exact lt_of_le_of_lt hle h
  | succ l ih =>
      obtain ⟨hlt, hne, hchain, hexact⟩ := h
      refine ⟨lt_of_le_of_lt hle hlt, hne, ?_, hexact⟩
      cases hes : e.2.entries with
      | nil => trivial
      | cons d es =>
          rw [hes] at hchain
          exact ⟨ih hchain.1, hchain.2⟩

theorem Chain.mono {es : List (K × Slot K V l)} (h : Chain (VSlot l) trail lo es)
    (hle : lo' ≤ lo) : Chain (VSlot l) trail lo' es := by
  cases es with
  | nil => trivial
  | cons e es => exact ⟨h.1.mono hle, h.2⟩

theorem VSlot.toTrail {e : K × Slot K V l} (h : VSlot l false lo e) : VSlot l true lo e := by
  induction l generalizing lo with
  | zero => exact h
  | succ l ih =>
      obtain ⟨hlt, hne, hchain, -⟩ := h
      refine ⟨hlt, hne, ?_, nofun⟩
      clear hlt hne
      generalize e.2.entries = es at hchain
      induction es generalizing lo with
      | nil => trivial
      | cons d es ihes =>
          refine ⟨?_, ihes hchain.2⟩
          cases es with
          | nil => exact ih hchain.1
          | cons _ _ => exact hchain.1

theorem Chain.toTrail {es : List (K × Slot K V l)} (h : Chain (VSlot l) false lo es) :
    Chain (VSlot l) true lo es := by
  induction es generalizing lo with
  | nil => trivial
  | cons e es ih =>
      refine ⟨?_, ih h.2⟩
      cases es with
      | nil => exact VSlot.toTrail h.1
      | cons _ _ => exact h.1

omit [Inhabited K] in
theorem lastOr_lt {key : K} {S : Type} {es : List (K × S)} (hlo : lo < key)
    (hes : ∀ e ∈ es, e.1 < key) : lastOr lo es < key := by
  induction es generalizing lo with
  | nil => exact hlo
  | cons e es ih =>
      exact ih (WithBot.coe_lt_coe.mpr (hes e List.mem_cons_self))
        fun d hd => hes d (List.mem_cons_of_mem _ hd)

theorem Chain.le_lastOr {es : List (K × Slot K V l)} (h : Chain (VSlot l) trail lo es) :
    lo ≤ lastOr lo es := by
  induction es generalizing lo with
  | nil => exact le_rfl
  | cons e es ih => exact le_trans (le_of_lt h.1.lt) (ih h.2)

theorem Chain.le_lastOr_of_mem {es : List (K × Slot K V l)} (h : Chain (VSlot l) trail lo es)
    {e : K × Slot K V l} (he : e ∈ es) : e.1 ≤ lastOr lo es := by
  obtain ⟨pre, post, rfl⟩ := List.append_of_mem he
  rw [chain_append] at h
  rw [lastOr_append]
  exact h.2.2.le_lastOr

theorem Chain.le_lastKey_of_mem {es : List (K × Slot K V l)} (h : Chain (VSlot l) trail lo es)
    {e : K × Slot K V l} (he : e ∈ es) : e.1 ≤ lastKey es := by
  have hle := h.le_lastOr_of_mem he
  rw [lastOr_of_ne_nil (List.ne_nil_of_mem he)] at hle
  exact WithBot.coe_le_coe.mp hle

theorem Chain.lt_lastKey {es : List (K × Slot K V l)} (h : Chain (VSlot l) trail lo es)
    (hne : es ≠ []) : lo < lastKey es := by
  obtain ⟨e, es, rfl⟩ := List.exists_cons_of_ne_nil hne
  have hlast : lastOr lo (e :: es) = lastKey (e :: es) := lastOr_of_ne_nil (by simp)
  rw [← hlast]
  exact lt_of_lt_of_le h.1.lt h.2.le_lastOr

/-- The keys of a chain increase. -/
theorem Chain.keys_sorted {es : List (K × Slot K V l)} (h : Chain (VSlot l) trail lo es) :
    (∀ e ∈ es, lo < e.1) ∧ es.Pairwise fun a b => a.1 < b.1 := by
  induction es generalizing lo with
  | nil => exact ⟨nofun, .nil⟩
  | cons e es ih =>
      obtain ⟨hlt, hsorted⟩ := ih h.2
      refine ⟨?_, List.pairwise_cons.mpr ⟨?_, hsorted⟩⟩
      · intro d hd
        rcases List.mem_cons.mp hd with rfl | hd
        · exact h.1.lt
        · exact lt_trans h.1.lt (hlt d hd)
      · intro d hd
        exact WithBot.coe_lt_coe.mp (hlt d hd)

theorem chain_zero_of_sorted {es : List (K × Slot K V 0)} (hlt : ∀ e ∈ es, lo < e.1)
    (hsorted : es.Pairwise fun a b => a.1 < b.1) : Chain (VSlot 0) trail lo es := by
  induction es generalizing lo with
  | nil => trivial
  | cons e es ih =>
      rw [List.pairwise_cons] at hsorted
      refine ⟨hlt e List.mem_cons_self, ih ?_ hsorted.2⟩
      exact fun d hd => WithBot.coe_lt_coe.mpr (hsorted.1 d hd)

/-- The entries of a leaf are just sorted. -/
theorem chain_leaf_iff {s : Slot K V 1} : Chain (VSlot 0) trail lo s.entries ↔
    (∀ b ∈ s.bindings, lo < b.1) ∧ Sorted s.bindings :=
  ⟨Chain.keys_sorted, fun h => chain_zero_of_sorted h.1 h.2⟩

/-- The bindings of a chain: above the lower bound, increasing, and inside the tree not above the
last key. -/
theorem Chain.flat {es : List (K × Slot K V l)} (h : Chain (VSlot l) trail lo es) :
    (∀ b ∈ flatOf es, lo < b.1) ∧ Sorted (flatOf es) ∧
      (trail = false → ∀ b ∈ flatOf es, (b.1 : WithBot K) ≤ lastOr lo es) := by
  induction l generalizing trail lo with
  | zero =>
      rw [flatOf_zero]
      obtain ⟨hlt, hsorted⟩ := h.keys_sorted
      exact ⟨hlt, hsorted, fun _ b hb => h.le_lastOr_of_mem hb⟩
  | succ l ih =>
      induction es generalizing lo with
      | nil => exact ⟨nofun, .nil, nofun⟩
      | cons e es ihes =>
          obtain ⟨⟨hlt, hne, hchain, hexact⟩, hrest⟩ := h
          obtain ⟨hchild, hsorted, hle⟩ := ih hchain
          obtain ⟨hafter, hsorted', hle'⟩ := ihes hrest
          rw [flatOf_cons, flat_succ]
          refine ⟨?_, List.pairwise_append.mpr ⟨hsorted, hsorted', ?_⟩, ?_⟩
          · intro b hb
            rcases List.mem_append.mp hb with hb | hb
            · exact hchild b hb
            · exact lt_trans hlt (hafter b hb)
          · intro a ha b hb
            have hes : es.isEmpty = false := by
              cases es with
              | nil => simp at hb
              | cons _ _ => rfl
            rw [hes, Bool.and_false] at hle hexact
            have hbound := hle rfl a ha
            rw [lastOr_of_ne_nil hne, hexact rfl] at hbound
            exact WithBot.coe_lt_coe.mp (lt_of_le_of_lt hbound (hafter b hb))
          · intro htrail b hb
            subst htrail
            rcases List.mem_append.mp hb with hb | hb
            · have hbound := hle rfl b hb
              rw [lastOr_of_ne_nil hne, hexact rfl] at hbound
              exact le_trans hbound hrest.le_lastOr
            · exact hle' rfl b hb

end Bounds

namespace Ctx

/-- The keys of the path for a node with last key `k`: that key, or on the right edge any key above
what is left of it. -/
def KeysAt : {l : Nat} → Ctx K V l → K → Prop
  | _, top, _ => True
  | _, up f c, k => (f.key = k ∨ (up f c).trailOf = true ∧ (up f c).loOf < f.key) ∧
      c.KeysAt (if f.right.isEmpty then f.key else lastKey f.right)

def Loose : {l : Nat} → Ctx K V l → Prop
  | _, top => True
  | _, up f c => if f.right.isEmpty then c.Loose else c.KeysAt (lastKey f.right)

theorem KeysAt.loose {c : Ctx K V l} {k : K} (h : c.KeysAt k) : c.Loose := by
  induction c generalizing k with
  | top => trivial
  | up f c ih =>
      obtain ⟨-, hupper⟩ := h
      unfold Loose
      split
      · rename_i hempty
        rw [if_pos hempty] at hupper
        exact ih hupper
      · rename_i hempty
        rw [if_neg hempty] at hupper
        exact hupper

/-- On the right edge the last key of the node may change. -/
theorem KeysAt.of_trail {c : Ctx K V l} {k k' : K} (h : c.KeysAt k) (htrail : c.trailOf = true)
    (hlo : c.loOf < k) : c.KeysAt k' := by
  cases c with
  | top => trivial
  | up f c =>
      obtain ⟨hkey, hupper⟩ := h
      refine ⟨Or.inr ⟨htrail, ?_⟩, hupper⟩
      rcases hkey with hkey | ⟨-, hlt⟩
      · rw [hkey]
        exact hlo
      · exact hlt

/-- The keys above a parent that has one more child before the right siblings. -/
theorem KeysAt.loose_up {f : Frame K V l} {c : Ctx K V (l + 1)} {e : K × Slot K V (l + 1)}
    (h : c.KeysAt (lastKey (e :: f.right))) : (Ctx.up f c).Loose := by
  rw [lastKey_cons] at h
  unfold Loose
  split
  · exact h.loose
  · rename_i hempty
    rw [if_neg hempty] at h
    exact h

theorem keysAt_fixKeys {c : Ctx K V l} (h : c.Loose) (t : Slot K V (l + 1)) :
    (c.fixKeys t).KeysAt (lastKey t.entries) := by
  induction c with
  | top => trivial
  | up f c ih =>
      unfold Loose at h
      simp only [fixKeys, KeysAt, true_or, true_and]
      split
      · rename_i hempty
        rw [if_pos hempty] at h
        have hkey := ih h (Frame.plug { f with key := lastKey t.entries } t)
        rw [List.isEmpty_iff] at hempty
        simpa [hempty, lastKey_concat] using hkey
      · rename_i hempty
        rw [if_neg hempty] at h
        exact h

end Ctx

/-- The entries of a position in a valid tree. -/
theorem Valid.chain_at {c : Ctx K V l} {t : Slot K V (l + 1)} (h : Valid (c.xplug t)) :
    Chain (VSlot l) c.trailOf c.loOf t.entries ∧ (c.path ≠ [] → t.entries ≠ []) := by
  induction c with
  | top => exact ⟨h.2, fun hne => absurd rfl hne⟩
  | up f c ih =>
      obtain ⟨hchain, -⟩ := ih h
      rw [Frame.entries_plug, chain_append, chain_cons] at hchain
      obtain ⟨-, ⟨-, hne, hself, -⟩, -⟩ := hchain
      exact ⟨hself, fun _ => hne⟩

/-- Only a leaf that is the root may be empty. -/
theorem Valid.entries_ne_nil {c : Ctx K V l} {t : Slot K V (l + 1)} (h : Valid (c.xplug t))
    (hne : c.path ≠ [] ∨ l ≠ 0) : t.entries ≠ [] := by
  cases c with
  | up f c => exact h.chain_at.2 (by simp [Ctx.path])
  | top => exact h.1.resolve_left (hne.resolve_left (by simp [Ctx.path]))

theorem Valid.sorted {r : Root K V} (h : Valid r) : Sorted (flatRoot r) := h.2.flat.2.1

/-- What is left of a position is not above its lower bound. -/
theorem Valid.before_le {c : Ctx K V l} {t : Slot K V (l + 1)} (h : Valid (c.xplug t)) :
    ∀ b ∈ c.before, (b.1 : WithBot K) ≤ c.loOf := by
  induction c with
  | top => nofun
  | up f c ih =>
      have hparent := (Valid.chain_at (c := c) h).1
      rw [Frame.entries_plug, chain_append, List.isEmpty_cons, Bool.and_false] at hparent
      intro b hb
      rcases List.mem_append.mp hb with hb | hb
      · exact le_trans (ih h b hb) hparent.1.le_lastOr
      · exact hparent.1.flat.2.2 rfl b hb

omit [LinearOrder K] [Inhabited K] in
theorem Ctx.after_of_trailOf {c : Ctx K V l} (h : c.trailOf = true) : c.after = [] := by
  induction c with
  | top => rfl
  | up f c ih =>
      obtain ⟨hc, hempty⟩ := Bool.and_eq_true_iff.mp h
      rw [List.isEmpty_iff] at hempty
      rw [Ctx.after, hempty, ih hc]
      rfl

/-- Another node at a position of a valid tree. Inside the tree its last key may not grow. -/
theorem Valid.replace {c : Ctx K V l} {t t' : Slot K V (l + 1)} (h : Valid (c.xplug t))
    (hne : c.path ≠ [] ∨ l ≠ 0 → t'.entries ≠ [])
    (hchain : Chain (VSlot l) c.trailOf c.loOf t'.entries)
    (hle : c.trailOf = false → lastKey t'.entries ≤ lastKey t.entries) : Valid (c.xplug t') := by
  induction c with
  | top =>
      rename_i l'
      refine ⟨?_, hchain⟩
      by_cases hl : l' = 0
      · exact Or.inl hl
      · exact Or.inr (hne (Or.inr hl))
  | up f c ih =>
      have hne' : t'.entries ≠ [] := hne (Or.inl (by simp [Ctx.path]))
      have hold := h.chain_at.1
      obtain ⟨hparent, -⟩ := Valid.chain_at (c := c) h
      rw [Frame.entries_plug, chain_append, chain_cons] at hparent
      obtain ⟨hleft, ⟨-, -, -, -⟩, hright⟩ := hparent
      change Valid (c.xplug (Frame.plug { f with key := lastKey t'.entries } t'))
      refine ih h (by simp) ?_ ?_
      · rw [Frame.entries_plug, chain_append, chain_cons]
        refine ⟨hleft, ⟨?_, hne', hchain, fun _ => rfl⟩, ?_⟩
        · exact hchain.lt_lastKey hne'
        · cases hempty : f.right with
          | nil => trivial
          | cons e es =>
              rw [hempty] at hright
              refine hright.mono (WithBot.coe_le_coe.mpr (hle ?_))
              simp [Ctx.trailOf, hempty]
      · intro htrail
        rw [lastKey_plug, lastKey_plug]
        split
        · exact hle (by simp [Ctx.trailOf, htrail])
        · exact le_rfl

/-- The greatest key in place of the one that stands there. -/
theorem Valid.exactKey {f : Frame K V l} {c : Ctx K V (l + 1)} {t : Slot K V (l + 1)}
    (h : Valid (c.xplug (f.plug t))) :
    Valid ((Ctx.up f c).xplug t) ∧
      (f.key = lastKey t.entries ∨ (Ctx.up f c).trailOf = true ∧ (Ctx.up f c).loOf < f.key) := by
  have hparent := h.chain_at.1
  rw [Frame.entries_plug, chain_append, chain_cons] at hparent
  obtain ⟨hleft, ⟨hlt, hne, hself, hexact⟩, hright⟩ := hparent
  by_cases htrail : (c.trailOf && f.right.isEmpty) = true
  · refine ⟨?_, Or.inr ⟨htrail, hlt⟩⟩
    obtain ⟨hc, hempty⟩ := Bool.and_eq_true_iff.mp htrail
    refine h.replace (by simp) ?_ (fun hfalse => by rw [hc] at hfalse; cases hfalse)
    rw [Frame.entries_plug, chain_append, chain_cons]
    rw [List.isEmpty_iff] at hempty
    refine ⟨hleft, ⟨hself.lt_lastKey hne, hne, hself, fun _ => rfl⟩, ?_⟩
    rw [hempty]
    trivial
  · have hkey := hexact (by simpa using htrail)
    refine ⟨?_, Or.inl hkey.symm⟩
    rw [Ctx.xplug, hkey]
    exact h

/-- A tree is valid if its siblings and the node are, and the keys of the path are right. -/
theorem valid_plug_iff (c : Ctx K V l) (t : Slot K V (l + 1)) :
    Valid (c.plug t) ↔ Valid (c.xplug t) ∧ c.KeysAt (lastKey t.entries) := by
  induction c with
  | top => simp [Ctx.plug, Ctx.xplug, Ctx.KeysAt]
  | up f c ih =>
      rw [Ctx.plug, ih, Ctx.KeysAt, lastKey_plug]
      constructor
      · rintro ⟨hvalid, hkeys⟩
        obtain ⟨hx, hkey⟩ := hvalid.exactKey
        exact ⟨hx, hkey, hkeys⟩
      · rintro ⟨hvalid, hkey, hkeys⟩
        refine ⟨?_, hkeys⟩
        rw [Ctx.xplug] at hvalid
        rcases hkey with hkey | ⟨htrail, hlt⟩
        · rw [← hkey] at hvalid
          exact hvalid
        · have hparent := hvalid.chain_at.1
          rw [Frame.entries_plug, chain_append, chain_cons] at hparent
          obtain ⟨hleft, ⟨-, hne, hself, -⟩, hright⟩ := hparent
          obtain ⟨hc, hempty⟩ := Bool.and_eq_true_iff.mp htrail
          refine hvalid.replace (by simp) ?_ (fun hfalse => by rw [hc] at hfalse; cases hfalse)
          rw [Frame.entries_plug, chain_append, chain_cons]
          refine ⟨hleft, ⟨hlt, hne, hself, ?_⟩, ?_⟩
          · intro hfalse
            rw [hempty, hc] at hfalse
            cases hfalse
          · rw [List.isEmpty_iff] at hempty
            rw [hempty]
            trivial

end Memoria.Lib

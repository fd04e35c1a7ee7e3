import Memoria.DropCtr
import Memoria.Proof.TreeRemovals

/-!
# When dropping a container ends

The recursion over the references does not mark the containers it is dropping, and a container stays
in the directory until its references are done with. A cycle of references is followed without end;
without one, a drop removes exactly the closure.
-/

namespace Memoria.DropCtr

open Lib Snapshot PersistentTree

variable {N I : Type}

namespace Snapshot

variable {s s' : Snapshot N I} {live pending : Finset I} {roots : I → ℕ} {id : I}

structure Shrinks (s s' : Snapshot N I) : Prop where
  sub : s'.ids ⊆ s.ids
  removed : ∃ ids, s'.removed = s.removed ++ ids ∧ ids.Nodup ∧
    ∀ b, b ∈ ids ↔ b ∈ s.ids ∧ b ∉ s'.ids

theorem Shrinks.of_eq (hids : s'.ids = s.ids) (hremoved : s'.removed = s.removed) :
    Shrinks s s' := by
  refine ⟨Finset.subset_of_eq hids, [], by rw [hremoved, List.append_nil], List.nodup_nil, ?_⟩
  intro b
  rw [hids]
  simp

theorem Shrinks.trans {s₁ s₂ s₃ : Snapshot N I} (h : Shrinks s₁ s₂) (h' : Shrinks s₂ s₃) :
    Shrinks s₁ s₃ := by
  obtain ⟨ids, hids, hnodup, hmem⟩ := h.removed
  obtain ⟨ids', hids', hnodup', hmem'⟩ := h'.removed
  refine ⟨h'.sub.trans h.sub, ids ++ ids', by rw [hids', hids, List.append_assoc], ?_, ?_⟩
  · refine List.Nodup.append hnodup hnodup' ?_
    intro b hb hb'
    exact ((hmem b).mp hb).2 ((hmem' b).mp hb').1
  · intro b
    rw [List.mem_append, hmem, hmem']
    constructor
    · rintro (⟨hb, hnot⟩ | ⟨hb, hnot⟩)
      · exact ⟨hb, fun hb' => hnot (h'.sub hb')⟩
      · exact ⟨h.sub hb, hnot⟩
    · rintro ⟨hb, hnot⟩
      by_cases hb₂ : b ∈ s₂.ids
      · exact Or.inr ⟨hb₂, hnot⟩
      · exact Or.inl ⟨hb, hb₂⟩

structure SameBut (s s' : Snapshot N I) : Prop where
  names : s'.names = s.names
  root : s'.root = s.root
  block : s'.block = s.block
  shrinks : Shrinks s s'

theorem SameBut.refl (s : Snapshot N I) : SameBut s s := ⟨rfl, rfl, rfl, .of_eq rfl rfl⟩

theorem SameBut.trans {s₁ s₂ s₃ : Snapshot N I} (h : SameBut s₁ s₂) (h' : SameBut s₂ s₃) :
    SameBut s₁ s₃ :=
  ⟨h'.names.trans h.names, h'.root.trans h.root, h'.block.trans h.block, h.shrinks.trans h'.shrinks⟩

theorem SameBut.children (h : SameBut s s') : s'.children = s.children := by
  funext b
  rw [Snapshot.children, h.block]
  rfl

variable [DecidableEq I]

theorem Shrinks.removeBlock (h : Shrinks s s') (hid : id ∈ s'.ids) :
    Shrinks s (s'.removeBlock id) := by
  refine h.trans ⟨Finset.erase_subset id s'.ids, [id], rfl, List.nodup_singleton id, ?_⟩
  intro b
  change b ∈ [id] ↔ b ∈ s'.ids ∧ b ∉ s'.ids.erase id
  rw [List.mem_singleton, Finset.mem_erase]
  constructor
  · rintro rfl
    exact ⟨hid, fun hb => hb.1 rfl⟩
  · rintro ⟨hb, hnot⟩
    by_contra hne
    exact hnot ⟨hne, hb⟩

structure Tracked (s : Snapshot N I) (live pending : Finset I) (roots : I → ℕ) : Prop where
  ids : s.ids = live ∪ pending
  disjoint : Disjoint live pending
  held : Held s.children live roots
  refs : ∀ b ∈ live, s.refs b = edges s.children live b + roots b

theorem addRef_count (roots : I → ℕ) (c : I) (cs : List I) :
    (fun b => roots b + (c :: cs).count b) = addRef (fun b => roots b + cs.count b) c := by
  funext b
  by_cases heq : b = c
  · subst heq
    simp [addRef, Nat.add_assoc]
  · rw [addRef_of_ne heq, List.count_cons_of_ne (Ne.symm heq)]

/-- The references of a block are given up one after the other. -/
theorem unrefAll_spec {unref : Snapshot N I → I → Option (Snapshot N I)} {bound : ℕ}
    (hunref : ∀ {s : Snapshot N I} {live pending : Finset I} {roots : I → ℕ} {id : I},
      s.Tracked live pending (addRef roots id) → live.card ≤ bound →
        ∃ s' live', unref s id = some s' ∧ live' ⊆ live ∧ s'.Tracked live' pending roots ∧
          SameBut s s')
    {ids : List I} (h : s.Tracked live pending fun b => roots b + ids.count b)
    (hcard : live.card ≤ bound) :
    ∃ s' live', ids.foldlM unref s = some s' ∧ live' ⊆ live ∧ s'.Tracked live' pending roots ∧
      SameBut s s' := by
  induction ids generalizing s live with
  | nil =>
      refine ⟨s, live, rfl, Finset.Subset.refl live, ?_, SameBut.refl s⟩
      simpa using h
  | cons c cs ih =>
      rw [addRef_count] at h
      obtain ⟨s₁, live₁, hs₁, hsub₁, htracked₁, hsame₁⟩ := hunref h hcard
      obtain ⟨s', live', hs', hsub', htracked', hsame'⟩ := ih htracked₁
        ((Finset.card_le_card hsub₁).trans hcard)
      exact ⟨s', live', by simp [List.foldlM_cons, hs₁, hs'], hsub'.trans hsub₁, htracked',
        hsame₁.trans hsame'⟩

theorem Tracked.mem (h : s.Tracked live pending (addRef roots id)) : id ∈ live :=
  h.held.rooted id (by simp)

theorem Tracked.getBlock (h : s.Tracked live pending (addRef roots id)) :
    s.getBlock id = some (s.block id) := by
  have hmem : id ∈ s.ids := by
    rw [h.ids]
    exact Finset.mem_union_left pending h.mem
  rw [Snapshot.getBlock, if_pos hmem]

/-- The counter after one reference is given up. -/
theorem Tracked.unrefBlock (h : s.Tracked live pending (addRef roots id)) :
    s.unrefBlock id = some ({ s with refs := Function.update s.refs id (s.refs id - 1) },
      decide (edges s.children live id + roots id = 0)) := by
  have hrefs := h.refs id h.mem
  rw [addRef_self] at hrefs
  have hpos : ¬ s.refs id < 1 := by omega
  have hlast : (s.refs id = 1) ↔ edges s.children live id + roots id = 0 := by omega
  simp [Snapshot.unrefBlock, hpos, hlast]

/-- A block that keeps a reference stays. -/
theorem Tracked.keep (h : s.Tracked live pending (addRef roots id))
    (hleft : 0 < edges s.children live id + roots id) :
    Tracked { s with refs := Function.update s.refs id (s.refs id - 1) } live pending roots where
  ids := h.ids
  disjoint := h.disjoint
  held := h.held.keep hleft
  refs b hb := by
    have hrefs := h.refs b hb
    by_cases heq : b = id
    · subst heq
      rw [addRef_self] at hrefs
      change Function.update s.refs b (s.refs b - 1) b = edges s.children live b + roots b
      rw [Function.update_self]
      omega
    · rw [addRef_of_ne heq] at hrefs
      change Function.update s.refs id (s.refs id - 1) b = edges s.children live b + roots b
      rw [Function.update_of_ne heq, hrefs]

/-- A block without references is about to be removed. -/
theorem Tracked.open (h : s.Tracked live pending (addRef roots id))
    (hlast : edges s.children live id + roots id = 0) :
    Tracked { s with refs := Function.update s.refs id (s.refs id - 1) } (live.erase id)
      (insert id pending) fun b => roots b + (s.children id).count b where
  ids := by
    rw [h.ids, Finset.union_insert, ← Finset.insert_union, Finset.insert_erase h.mem]
  disjoint := by
    rw [Finset.disjoint_insert_right]
    exact ⟨Finset.notMem_erase id live, h.disjoint.mono_left (Finset.erase_subset id live)⟩
  held := h.held.open hlast
  refs b hb := by
    have hne := Finset.ne_of_mem_erase hb
    have hrefs := h.refs b (Finset.mem_of_mem_erase hb)
    rw [addRef_of_ne hne, edges_erase h.mem] at hrefs
    change Function.update s.refs id (s.refs id - 1) b =
      edges s.children (live.erase id) b + (roots b + (s.children id).count b)
    rw [Function.update_of_ne hne, hrefs]
    omega

/-- The block is removed after its references have been given up. -/
theorem Tracked.remove {live' : Finset I} (h : s.Tracked live' (insert id pending) roots)
    (hid : id ∉ live') (hpending : id ∉ pending) : Tracked (s.removeBlock id) live' pending roots where
  ids := by
    change s.ids.erase id = live' ∪ pending
    rw [h.ids, Finset.union_insert, Finset.erase_insert]
    simp [hid, hpending]
  disjoint := h.disjoint.mono_right (Finset.subset_insert id pending)
  held := h.held
  refs := h.refs

/-- **Giving up a reference.** -/
theorem ctrUnrefBlock_spec {fuel : ℕ} (h : s.Tracked live pending (addRef roots id))
    (hfuel : live.card ≤ fuel) :
    ∃ s' live', ctrUnrefBlock fuel s id = some s' ∧ live' ⊆ live ∧ s'.Tracked live' pending roots ∧
      SameBut s s' := by
  induction fuel generalizing s live pending roots id with
  | zero =>
      have := Finset.card_pos.mpr ⟨id, h.mem⟩
      omega
  | succ fuel ih =>
      rw [ctrUnrefBlock, h.getBlock, Option.bind_eq_bind, Option.bind_some, h.unrefBlock]
      by_cases hlast : edges s.children live id + roots id = 0
      · have hcard : (live.erase id).card ≤ fuel := by
          rw [Finset.card_erase_of_mem h.mem]
          omega
        have hpending : id ∉ pending := Finset.disjoint_left.mp h.disjoint h.mem
        obtain ⟨s', live', hs', hsub, htracked, hsame⟩ := unrefAll_spec ih (h.open hlast) hcard
        have hid : id ∉ live' := fun hmem => Finset.notMem_erase id live (hsub hmem)
        have hthere : id ∈ s'.ids := by
          rw [htracked.ids]
          exact Finset.mem_union_right live' (Finset.mem_insert_self id pending)
        have hshrinks : Shrinks s s' := ⟨hsame.shrinks.sub, hsame.shrinks.removed⟩
        refine ⟨s'.removeBlock id, live', ?_, hsub.trans (Finset.erase_subset id live),
          htracked.remove hid hpending,
          ⟨hsame.names, hsame.root, hsame.block, hshrinks.removeBlock hthere⟩⟩
        have hs'' : (s.block id).children.foldlM (ctrUnrefBlock fuel)
            { s with refs := Function.update s.refs id (s.refs id - 1) } = some s' := hs'
        rw [decide_eq_true hlast]
        simp [hs'']
      · refine ⟨_, live, ?_, Finset.Subset.refl live, h.keep (Nat.pos_of_ne_zero hlast),
          ⟨rfl, rfl, rfl, .of_eq rfl rfl⟩⟩
        rw [decide_eq_false hlast]
        rfl

theorem unrefCtrRoot_eq (fuel : ℕ) (s : Snapshot N I) (id : I) :
    unrefCtrRoot fuel s id = ctrUnrefBlock (fuel + 1) s id := by
  rw [unrefCtrRoot, ctrUnrefBlock]
  by_cases hid : id ∈ s.ids
  · have hget : s.getBlock id = some (s.block id) := if_pos hid
    by_cases hrefs : s.refs id < 1
    · simp [hget, Snapshot.unrefBlock, hrefs]
    · have hcascade : ctrUnrefBlockCascade fuel
          { s with refs := Function.update s.refs id (s.refs id - 1) } id =
            ((s.block id).children.foldlM (ctrUnrefBlock fuel)
              { s with refs := Function.update s.refs id (s.refs id - 1) }).bind
                fun s => some (s.removeBlock id) := by
        simp [ctrUnrefBlockCascade, Snapshot.getBlock, hid]
      simp [hget, Snapshot.unrefBlock, hrefs, hcascade]
  · simp [Snapshot.getBlock, hid]

def removeTree (free : ℕ) (s : Snapshot N I) (id : I) : Option (Snapshot N I) := do
  let s ← s.ctrRemoveNodeRecursively free id
  some (s.removeBlock id)

theorem removeTree_eq_some_iff {free : ℕ} : removeTree free s id = some s' ↔
    ∃ t, s.ctrRemoveNodeRecursively free id = some t ∧ t.removeBlock id = s' := by
  rw [removeTree, Option.bind_eq_bind, Option.bind_eq_some_iff]
  simp only [Option.some.injEq]

theorem ctrRemoveNodeRecursively_succ {free : ℕ} (hget : s.getBlock id = some (s.block id)) :
    s.ctrRemoveNodeRecursively (free + 1) id = (s.children id).foldlM (removeTree free) s := by
  rw [ctrRemoveNodeRecursively, hget]
  rfl

/-- Without children the number of slots makes no difference. -/
theorem ctrRemoveNodeRecursively_leaf (hget : s.getBlock id = some (s.block id))
    (hleaf : s.children id = []) (free : ℕ) : s.ctrRemoveNodeRecursively free id = some s := by
  cases free with
  | zero =>
      have hempty : (s.block id).children.isEmpty = true := List.isEmpty_iff.mpr hleaf
      rw [ctrRemoveNodeRecursively, hget, Option.bind_eq_bind, Option.bind_some, if_pos hempty]
  | succ free =>
      rw [ctrRemoveNodeRecursively_succ hget, hleaf]
      rfl

/-- The only reference to a block is given up, where no block has two. -/
theorem ctrUnrefBlock_single {fuel : ℕ} (hone : ∀ b, s.refs b ≤ 1)
    (h : ctrUnrefBlock (fuel + 1) s id = some s') :
    s.getBlock id = some (s.block id) ∧ ∃ s₁ s₂ : Snapshot N I,
      s₁ = { s with refs := Function.update s.refs id (s.refs id - 1) } ∧ (∀ b, s₁.refs b ≤ 1) ∧
        (s.children id).foldlM (ctrUnrefBlock fuel) s₁ = some s₂ ∧ s' = s₂.removeBlock id := by
  rw [ctrUnrefBlock] at h
  obtain ⟨block, hget, h⟩ := Option.bind_eq_some_iff.mp h
  obtain ⟨⟨s₁, last⟩, hunref, h⟩ := Option.bind_eq_some_iff.mp h
  obtain ⟨hrefs, heq⟩ := Option.ite_none_left_eq_some.mp hunref
  obtain ⟨rfl, rfl⟩ := Prod.mk.inj (Option.some.inj heq)
  have hlast : s.refs id = 1 := by
    have := hone id
    omega
  have hblock : block = s.block id := by
    obtain ⟨-, heq⟩ := Option.ite_none_right_eq_some.mp hget
    exact (Option.some.inj heq).symm
  subst hblock
  simp only [hlast, decide_true, if_true] at h
  obtain ⟨s₂, hs₂, h⟩ := Option.bind_eq_some_iff.mp h
  refine ⟨hget, { s with refs := Function.update s.refs id (s.refs id - 1) }, s₂, rfl, ?_,
    hlast ▸ hs₂, (Option.some.inj h).symm⟩
  intro b
  change Function.update s.refs id (s.refs id - 1) b ≤ 1
  by_cases heq : b = id
  · subst heq
    rw [Function.update_self]
    omega
  · rw [Function.update_of_ne heq]
    exact hone b

/-- Then giving it up is removing the block with everything under it. -/
theorem removeTree_of_unref {free : ℕ} (hone : ∀ b, s.refs b ≤ 1)
    (h : ctrUnrefBlock (free + 1) s id = some s') (refs : I → ℕ) :
    (∀ b, s'.refs b ≤ 1) ∧
      removeTree free { s with refs := refs } id = some { s' with refs := refs } := by
  induction free generalizing s s' id with
  | zero =>
      obtain ⟨hget, s₁, s₂, rfl, hone₁, hfold, rfl⟩ := ctrUnrefBlock_single hone h
      have hget' : getBlock { s with refs := refs } id = some (s.block id) := hget
      cases hchildren : s.children id with
      | nil =>
          rw [hchildren] at hfold
          obtain rfl := Option.some.inj hfold
          exact ⟨hone₁, removeTree_eq_some_iff.mpr ⟨{ s with refs := refs },
            ctrRemoveNodeRecursively_leaf hget' hchildren 0, rfl⟩⟩
      | cons c cs =>
          rw [hchildren, List.foldlM_cons] at hfold
          cases hfold
  | succ free ih =>
      have hall : ∀ (ids : List I) {s s' : Snapshot N I}, (∀ b, s.refs b ≤ 1) →
          ids.foldlM (ctrUnrefBlock (free + 1)) s = some s' → (∀ b, s'.refs b ≤ 1) ∧
            ids.foldlM (removeTree free) { s with refs := refs } = some { s' with refs := refs } := by
        intro ids
        induction ids with
        | nil =>
            intro s s' hone h
            obtain rfl := Option.some.inj h
            exact ⟨hone, rfl⟩
        | cons c cs ihcs =>
            intro s s' hone h
            obtain ⟨s₁, hs₁, hrest⟩ := Option.bind_eq_some_iff.mp h
            obtain ⟨hone₁, hremove⟩ := ih hone hs₁
            obtain ⟨hone', hrest'⟩ := ihcs hone₁ hrest
            exact ⟨hone', by rw [List.foldlM_cons, hremove]; exact hrest'⟩
      obtain ⟨hget, s₁, s₂, rfl, hone₁, hfold, rfl⟩ := ctrUnrefBlock_single hone h
      have hget' : getBlock { s with refs := refs } id = some (s.block id) := hget
      obtain ⟨hone₂, hremove⟩ := hall (s.children id) hone₁ hfold
      refine ⟨hone₂, removeTree_eq_some_iff.mpr ⟨{ s₂ with refs := refs }, ?_, rfl⟩⟩
      rw [ctrRemoveNodeRecursively_succ hget']
      exact hremove

omit [DecidableEq I] in
theorem fits_congr (hblock : s'.block = s.block) : s'.Fits = s.Fits := by
  have hchildren : s'.children = s.children := by
    funext b
    rw [Snapshot.children, hblock]
    rfl
  funext n
  induction n with
  | zero =>
      funext id
      rw [Fits, Fits, hchildren]
  | succ n ih =>
      funext id
      rw [Fits, Fits, hchildren, ih]

theorem removeTrees_levels {m : ℕ}
    (hchild : ∀ {s s' : Snapshot N I} {id : I}, s.ctrRemoveNodeRecursively m id = some s' →
      s'.names = s.names ∧ s'.block = s.block ∧ s.Fits m id = true ∧
        ∀ n, s.Fits n id = true → s.ctrRemoveNodeRecursively n id = some s')
    {ids : List I} (h : ids.foldlM (removeTree m) s = some s') :
    s'.names = s.names ∧ s'.block = s.block ∧ ids.all (s.Fits m) = true ∧
      ∀ n, ids.all (s.Fits n) = true → ids.foldlM (removeTree n) s = some s' := by
  induction ids generalizing s with
  | nil =>
      obtain rfl := Option.some.inj h
      exact ⟨rfl, rfl, rfl, fun _ _ => rfl⟩
  | cons c cs ih =>
      obtain ⟨s₁, hs₁, hrest⟩ := Option.bind_eq_some_iff.mp h
      obtain ⟨t, ht, rfl⟩ := removeTree_eq_some_iff.mp hs₁
      obtain ⟨hnames, hblock, hfits, hless⟩ := hchild ht
      obtain ⟨hnames', hblock', hfits', hless'⟩ := ih hrest
      have hsame : (t.removeBlock c).Fits = s.Fits := fits_congr hblock
      rw [hsame] at hfits' hless'
      refine ⟨hnames'.trans hnames, hblock'.trans hblock,
        by rw [List.all_cons, hfits, hfits']; rfl, ?_⟩
      intro n hn
      rw [List.all_cons, Bool.and_eq_true] at hn
      have hc : removeTree n s c = some (t.removeBlock c) :=
        removeTree_eq_some_iff.mpr ⟨t, hless n hn.1, rfl⟩
      rw [List.foldlM_cons, hc]
      exact hless' n hn.2

theorem getBlock_of_remove {free : ℕ} (h : s.ctrRemoveNodeRecursively free id = some s') :
    s.getBlock id = some (s.block id) := by
  cases hblock : s.getBlock id with
  | none => cases free <;> simp [ctrRemoveNodeRecursively, hblock] at h
  | some block =>
      obtain ⟨-, heq⟩ := Option.ite_none_right_eq_some.mp hblock
      exact heq.symm

/-- A removal needs a slot for each level, and further slots make no difference. -/
theorem ctrRemoveNodeRecursively_levels {m : ℕ} (h : s.ctrRemoveNodeRecursively m id = some s') :
    s'.names = s.names ∧ s'.block = s.block ∧ s.Fits m id = true ∧
      ∀ n, s.Fits n id = true → s.ctrRemoveNodeRecursively n id = some s' := by
  have hget := getBlock_of_remove h
  induction m generalizing s s' id with
  | zero =>
      rw [ctrRemoveNodeRecursively, hget, Option.bind_eq_bind, Option.bind_some] at h
      obtain ⟨hempty, heq⟩ := Option.ite_none_right_eq_some.mp h
      obtain rfl := Option.some.inj heq
      exact ⟨rfl, rfl, hempty, fun n _ =>
        ctrRemoveNodeRecursively_leaf hget (List.isEmpty_iff.mp hempty) n⟩
  | succ m ih =>
      rw [ctrRemoveNodeRecursively_succ hget] at h
      obtain ⟨hnames, hblock, hfits, hless⟩ :=
        removeTrees_levels (fun h => ih h (getBlock_of_remove h)) h
      refine ⟨hnames, hblock, hfits, ?_⟩
      intro n hn
      cases n with
      | zero =>
          have hleaf : s.children id = [] := List.isEmpty_iff.mp hn
          rw [hleaf] at h
          rw [ctrRemoveNodeRecursively_leaf hget hleaf]
          exact h
      | succ n =>
          rw [ctrRemoveNodeRecursively_succ hget]
          exact hless n hn

end Snapshot

section Containers

variable [DecidableEq N] [DecidableEq I] {s s' : Snapshot N I} {profile : Profile N}
  {elsewhere : I → ℕ} {name : N}

theorem entries_eq (hname : name ∈ s.names) :
    (fun b => s.entries b + elsewhere b) =
      addRef (fun b => (s.removeName name).entries b + elsewhere b) (s.root name) := by
  funext b
  have hfilter : ((s.removeName name).names.filter fun n => s.root n = b) =
      (s.names.filter fun n => s.root n = b).erase name := Finset.filter_erase _ _ _
  have hentries : (s.removeName name).entries b =
      ((s.names.filter fun n => s.root n = b).erase name).card := congrArg Finset.card hfilter
  by_cases heq : b = s.root name
  · have hmem : name ∈ s.names.filter fun n => s.root n = b :=
      Finset.mem_filter.mpr ⟨hname, heq.symm⟩
    have hcard := Finset.card_erase_add_one hmem
    rw [heq, addRef_self, ← heq, hentries, Snapshot.entries]
    omega
  · have hmem : name ∉ s.names.filter fun n => s.root n = b := fun hmem =>
      heq (Finset.mem_filter.mp hmem).2.symm
    rw [addRef_of_ne heq, hentries, Finset.erase_eq_of_notMem hmem]
    rfl

omit [DecidableEq N] in
theorem Snapshot.WellFormed.root_mem (h : s.WellFormed profile elsewhere) (hname : name ∈ s.names) :
    s.root name ∈ s.ids := by
  apply h.held.rooted
  have hmem : name ∈ s.names.filter fun n => s.root n = s.root name :=
    Finset.mem_filter.mpr ⟨hname, rfl⟩
  have hpos : 0 < s.entries (s.root name) := Finset.card_pos.mpr ⟨name, hmem⟩
  change 0 < s.entries (s.root name) + elsewhere (s.root name)
  omega

def dropEntry (profile : Profile N) (s : Snapshot N I) (name : N) : Option (Snapshot N I) :=
  match profile with
  | .noCow _ => ((s.removeTree s.ids.card (s.root name)).map fun s => s.removeName name)
  | .cow => (s.removeName name).unrefCtrRoot s.ids.card (s.root name)

/-- **One container.** Its entry goes, and the snapshot stays well formed. -/
theorem Snapshot.WellFormed.dropEntry (h : s.WellFormed profile elsewhere) (hname : name ∈ s.names) :
    ∃ s', dropEntry profile s name = some s' ∧ s'.WellFormed profile elsewhere ∧
      s'.names = s.names.erase name ∧ s'.root = s.root ∧ s'.block = s.block ∧ Shrinks s s' := by
  obtain ⟨level, hlevel⟩ := h.level
  have hheld := h.held
  rw [entries_eq hname] at hheld
  cases profile with
  | noCow slots =>
      obtain ⟨helsewhere, hone⟩ := h.counted
      -- the counters that the blocks would have
      have htracked : Tracked { s with refs := fun b => if b ∈ s.ids then 1 else 0 } s.ids ∅
          (addRef (fun b => (s.removeName name).entries b + elsewhere b) (s.root name)) := by
        refine ⟨(Finset.union_empty _).symm, Finset.disjoint_empty_right _, hheld, ?_⟩
        intro b hb
        rw [← entries_eq hname]
        simp only [if_pos hb, helsewhere b, Nat.add_zero]
        exact (hone b hb).symm
      obtain ⟨⟨names, root, ids, block, refs, removed⟩, live', hu, hsub, ht,
        ⟨hnames, hroot, hblock, hshrinks⟩⟩ := ctrUnrefBlock_spec htracked (Nat.le_succ _)
      simp only at hnames hroot hblock
      subst hnames hroot hblock
      obtain rfl : ids = live' := ht.ids.trans (Finset.union_empty _)
      obtain ⟨hone', hremove⟩ := removeTree_of_unref (by
        intro b
        change (if b ∈ s.ids then 1 else 0) ≤ 1
        split_ifs <;> omega) hu s.refs
      have hremove' : s.removeTree s.ids.card (s.root name) =
          some ⟨s.names, s.root, ids, s.block, s.refs, removed⟩ := hremove
      refine ⟨Snapshot.removeName ⟨s.names, s.root, ids, s.block, s.refs, removed⟩ name, ?_, ?_,
        rfl, rfl, rfl, ⟨hshrinks.sub, hshrinks.removed⟩⟩
      · rw [DropCtr.dropEntry, hremove']
        rfl
      · refine ⟨ht.held, ⟨level, fun b hb => hlevel b (hsub hb)⟩, helsewhere, ?_⟩
        intro b hb
        have hrefs := ht.refs b hb
        have hpos := ht.held.counted b hb
        have hle := hone' b
        change refs b ≤ 1 at hle
        change refs b = edges s.children ids b + ((s.removeName name).entries b + elsewhere b) at hrefs
        change 0 < edges s.children ids b + ((s.removeName name).entries b + elsewhere b) at hpos
        change edges s.children ids b + (s.removeName name).entries b = 1
        have := helsewhere b
        omega
  | cow =>
      have htracked : Tracked (s.removeName name) s.ids ∅
          (addRef (fun b => (s.removeName name).entries b + elsewhere b) (s.root name)) := by
        refine ⟨(Finset.union_empty _).symm, Finset.disjoint_empty_right _, hheld, ?_⟩
        intro b hb
        rw [← entries_eq hname]
        exact h.counted b hb
      obtain ⟨⟨names, root, ids, block, refs, removed⟩, live', hu, hsub, ht,
        ⟨hnames, hroot, hblock, hshrinks⟩⟩ := ctrUnrefBlock_spec htracked (Nat.le_succ _)
      simp only at hnames hroot hblock
      subst hnames hroot hblock
      obtain rfl : ids = live' := ht.ids.trans (Finset.union_empty _)
      refine ⟨⟨_, _, ids, _, refs, removed⟩, ?_, ?_, rfl, rfl, rfl,
        ⟨hshrinks.sub, hshrinks.removed⟩⟩
      · rw [DropCtr.dropEntry, unrefCtrRoot_eq]
        exact hu
      · exact ⟨ht.held, ⟨level, fun b hb => hlevel b (hsub hb)⟩, ht.refs⟩

/-- Some containers, one after the other. -/
theorem Snapshot.WellFormed.dropAll (h : s.WellFormed profile elsewhere) {names : List N}
    (hnodup : names.Nodup) (hnames : ∀ n ∈ names, n ∈ s.names) (hfold :
      names.foldlM (DropCtr.dropEntry profile) s = some s') :
    s'.WellFormed profile elsewhere ∧ (∀ n, n ∈ s'.names ↔ n ∈ s.names ∧ n ∉ names) ∧
      s'.root = s.root ∧ s'.block = s.block ∧ Shrinks s s' := by
  induction names generalizing s with
  | nil =>
      obtain rfl := Option.some.inj hfold
      exact ⟨h, by simp, rfl, rfl, .of_eq rfl rfl⟩
  | cons n names ih =>
      obtain ⟨hn, hnodup⟩ := List.nodup_cons.mp hnodup
      obtain ⟨s₁, hs₁, h₁, hnames₁, hroot₁, hblock₁, hshrinks₁⟩ :=
        h.dropEntry (hnames n List.mem_cons_self)
      rw [List.foldlM_cons, hs₁] at hfold
      obtain ⟨h', hnames', hroot', hblock', hshrinks'⟩ := ih h₁ hnodup (by
        intro m hm
        rw [hnames₁]
        exact Finset.mem_erase.mpr ⟨fun heq => hn (heq ▸ hm), hnames m (List.mem_cons_of_mem _ hm)⟩)
        hfold
      refine ⟨h', ?_, hroot'.trans hroot₁, hblock'.trans hblock₁, hshrinks₁.trans hshrinks'⟩
      intro m
      rw [hnames', hnames₁, Finset.mem_erase, List.mem_cons, not_or]
      constructor
      · rintro ⟨⟨hne, hm⟩, hnot⟩
        exact ⟨hm, hne, hnot⟩
      · rintro ⟨hm, hne, hnot⟩
        exact ⟨⟨hne, hm⟩, hnot⟩

/-- Without CoW a drop takes the slots of the tree of blocks and of the directory, with CoW none. -/
theorem Snapshot.WellFormed.drop_noCow {slots : Slots N} {free : ℕ}
    (h : s.WellFormed (.noCow slots) elsewhere) (hname : name ∈ s.names) :
    DropCtr.drop (.noCow slots) free s name =
      if s.Fits free (s.root name) = true ∧ slots.remove s.names name ≤ free then
        DropCtr.dropEntry (.noCow slots) s name
      else none := by
  obtain ⟨s', hs', -⟩ := h.dropEntry hname
  obtain ⟨u, hu, rfl⟩ := Option.map_eq_some_iff.mp hs'
  obtain ⟨t, ht, rfl⟩ := removeTree_eq_some_iff.mp hu
  obtain ⟨hnames, -, hall, hless⟩ := ctrRemoveNodeRecursively_levels ht
  rw [hs']
  by_cases hfits : s.Fits free (s.root name) = true
  · have hrun : s.ctrRemoveNodeRecursively free (s.root name) = some t := hless free hfits
    by_cases hroom : slots.remove s.names name ≤ free
    · simp [DropCtr.drop, hrun, hnames, hfits, hroom]
      rfl
    · simp [DropCtr.drop, hrun, hnames, hfits, hroom]
  · have hrun : s.ctrRemoveNodeRecursively free (s.root name) = none := by
      cases hrun : s.ctrRemoveNodeRecursively free (s.root name) with
      | none => rfl
      | some t' => exact absurd (ctrRemoveNodeRecursively_levels hrun).2.2.1 hfits
    simp [DropCtr.drop, hrun, hfits]

def graphRefs (s : Snapshot N I) (name : N) : Option (List (Option N)) :=
  (s.getRootID name).map fun root_id =>
    match s.getBlock root_id with
    | none => [none]
    | some block => block.references

theorem dropCtr_cow (fuel : ℕ) (s : Snapshot N I) (a : Option N) :
    dropCtr .cow fuel s a = dropGraph graphRefs (dropEntry .cow) fuel s a := by
  induction fuel generalizing s a with
  | zero => rfl
  | succ fuel ih =>
      cases a with
      | none => rfl
      | some name =>
          simp only [dropCtr, dropGraph, graphRefs, getRootIDWithin, Option.bind_eq_bind,
            Option.bind_some]
          cases s.getRootID name with
          | none => rfl
          | some root_id =>
              cases hget : s.getBlock root_id with
              | none =>
                  simp only [Option.map_some, hget]
                  cases fuel <;> rfl
              | some block =>
                  simp only [Option.map_some, hget, ih]
                  rfl

theorem graphRefs_eq (h : s.WellFormed profile elsewhere) (name : N) :
    graphRefs s name =
      if name ∈ s.names then some (s.block (s.root name)).references else none := by
  by_cases hname : name ∈ s.names
  · have hroot := h.root_mem hname
    simp [graphRefs, Snapshot.getRootID, Snapshot.getBlock, hname, hroot]
  · simp [graphRefs, Snapshot.getRootID, hname]

theorem erasable (profile : Profile N) (elsewhere : I → ℕ) :
    Erasable graphRefs (dropEntry profile) fun s : Snapshot N I =>
      s.WellFormed profile elsewhere where
  erase := by
    intro s name targets h hname
    rw [graphRefs_eq h] at hname
    obtain ⟨hmem, -⟩ := Option.ite_none_right_eq_some.mp hname
    obtain ⟨s', hs', h', hnames, hroot, hblock, -⟩ := h.dropEntry hmem
    refine ⟨s', hs', h', fun m => ?_⟩
    rw [graphRefs_eq h, graphRefs_eq h', hnames, hroot, hblock]
    by_cases heq : m = name
    · simp [heq]
    · simp [heq]

theorem refers_eq (h : s.WellFormed profile elsewhere) : Lib.Refers graphRefs s = s.Refers := by
  funext a b
  apply propext
  constructor
  · rintro ⟨n, targets, rfl, hn, hb⟩
    rw [graphRefs_eq h] at hn
    obtain ⟨hmem, heq⟩ := Option.ite_none_right_eq_some.mp hn
    obtain rfl := Option.some.inj heq
    exact ⟨n, hmem, rfl, hb⟩
  · rintro ⟨n, hmem, rfl, hb⟩
    exact ⟨n, _, rfl, by rw [graphRefs_eq h, if_pos hmem], hb⟩

theorem reach_eq (h : s.WellFormed profile elsewhere) : Lib.Reach graphRefs s = s.Reaches := by
  funext a
  rw [Lib.Reach, refers_eq h]
  rfl

theorem safe_iff (h : s.WellFormed profile elsewhere) (a : Option N) :
    Lib.Safe graphRefs s a ↔ s.Acyclic a := by
  rw [Lib.Safe, reach_eq h, refers_eq h]
  rfl

theorem isSome_graphRefs (h : s.WellFormed profile elsewhere) {n : N} :
    (graphRefs s n).isSome ↔ n ∈ s.names := by
  rw [graphRefs_eq h]
  by_cases hn : n ∈ s.names <;> simp [hn]

omit [DecidableEq N] in
theorem Profile.eq_noCow (h : profile ≠ .cow) : ∃ slots, profile = .noCow slots := by
  cases profile with
  | noCow slots => exact ⟨slots, rfl⟩
  | cow => exact absurd rfl h

omit [DecidableEq N] in
/-- The blocks of a snapshot are those that a container or another snapshot has a path to. -/
theorem Snapshot.WellFormed.mem_ids_iff (h : s.WellFormed profile elsewhere) {b : I} :
    b ∈ s.ids ↔ (∃ n ∈ s.names, s.Owns n b) ∨ ∃ r, 0 < elsewhere r ∧ s.Under r b := by
  obtain ⟨level, hlevel⟩ := h.level
  rw [h.held.mem_iff hlevel]
  constructor
  · rintro ⟨r, hr, hpath⟩
    by_cases hentry : 0 < s.entries r
    · obtain ⟨n, hn⟩ := Finset.card_pos.mp hentry
      obtain ⟨hmem, rfl⟩ := Finset.mem_filter.mp hn
      exact Or.inl ⟨n, hmem, hpath⟩
    · exact Or.inr ⟨r, by omega, hpath⟩
  · rintro (⟨n, hmem, hpath⟩ | ⟨r, hr, hpath⟩)
    · have hentry : 0 < s.entries (s.root n) :=
        Finset.card_pos.mpr ⟨n, Finset.mem_filter.mpr ⟨hmem, rfl⟩⟩
      exact ⟨s.root n, by omega, hpath⟩
    · exact ⟨r, by omega, hpath⟩

omit [DecidableEq N] in
/-- Without CoW a block has one owner. -/
theorem Snapshot.WellFormed.owner_unique {slots : Slots N}
    (h : s.WellFormed (.noCow slots) elsewhere) {n m : N} {b : I}
    (hn : n ∈ s.names) (hm : m ∈ s.names) (hnb : s.Owns n b) (hmb : s.Owns m b) : n = m := by
  obtain ⟨helsewhere, hone⟩ := h.counted
  have hentry : ∀ {n}, n ∈ s.names → 0 < s.entries (s.root n) := fun hn =>
    Finset.card_pos.mpr ⟨_, Finset.mem_filter.mpr ⟨hn, rfl⟩⟩
  have hroot : s.root n = s.root m :=
    eq_of_single (fun b hb => Nat.le_of_eq (hone b hb)) h.held.closed
      (hentry hn) (h.root_mem hn) (hentry hm) (h.root_mem hm) hnb hmb
  have hcard : s.entries (s.root m) ≤ 1 := by
    have := hone _ (h.root_mem hm)
    omega
  exact Finset.card_le_one.mp hcard n (Finset.mem_filter.mpr ⟨hn, hroot⟩) m
    (Finset.mem_filter.mpr ⟨hm, rfl⟩)

/-- **A drop that ends** has removed the closure. -/
theorem dropGraph_dropped (h : s.WellFormed profile elsewhere) {fuel : ℕ} {a : Option N}
    {result : Bool} (hdrop : dropGraph graphRefs (dropEntry profile) fuel s a = some (s', result)) :
    s.Dropped profile elsewhere a s' result ∧ s.Acyclic a := by
  obtain ⟨⟨⟨names, hnodup, hfold, hnames⟩, hsafe⟩, hresult⟩ :=
    dropGraph_spec (erasable profile elsewhere) h hdrop
  simp only [reach_eq h, isSome_graphRefs h, exists_eq_left] at hnames hresult
  obtain ⟨h', hnames', hroot, hblock, hshrinks⟩ :=
    h.dropAll hnodup (fun n hn => ((hnames n).mp hn).2) hfold
  have hleft : ∀ n, n ∈ s'.names ↔ n ∈ s.names ∧ ¬ s.Reaches a (some n) := by
    intro n
    rw [hnames', hnames]
    constructor
    · rintro ⟨hn, hnot⟩
      exact ⟨hn, fun hreach => hnot ⟨hreach, hn⟩⟩
    · rintro ⟨hn, hnot⟩
      exact ⟨hn, fun hreach => hnot hreach.1⟩
  have hunder : s'.Under = s.Under := by
    unfold Snapshot.Under Snapshot.children
    rw [hblock]
  have howns : s'.Owns = s.Owns := by
    unfold Snapshot.Owns
    rw [hunder, hroot]
  have hids : ∀ b, b ∈ s'.ids ↔ (∃ n ∈ s.names, ¬ s.Reaches a (some n) ∧ s.Owns n b) ∨
      ∃ r, 0 < elsewhere r ∧ s.Under r b := by
    intro b
    rw [h'.mem_ids_iff, howns, hunder]
    simp only [hleft, and_assoc]
  have hsub : ∀ b ∈ s'.ids, b ∈ s.ids := by
    intro b hb
    rw [h.mem_ids_iff]
    obtain ⟨n, hn, -, howns⟩ | helse := (hids b).mp hb
    · exact Or.inl ⟨n, hn, howns⟩
    · exact Or.inr helse
  refine ⟨⟨h', hleft, hroot, hblock, ?_, ?_, ?_, hshrinks.removed⟩,
    (safe_iff h a).mp (hsafe a rfl)⟩
  · intro b
    rw [← hids]
    exact ⟨fun hb => ⟨hsub b hb, hb⟩, fun hb => hb.2⟩
  · intro hprofile b hb
    obtain ⟨slots, rfl⟩ := Profile.eq_noCow hprofile
    have helse : ¬ ∃ r, 0 < elsewhere r ∧ s.Under r b := by
      rintro ⟨r, hr, -⟩
      have := h.counted.1 r
      omega
    rw [hids, or_iff_left helse]
    constructor
    · intro hgone
      obtain ⟨n, hn, howns⟩ | hother := h.mem_ids_iff.mp hb
      · refine ⟨n, hn, ?_, howns⟩
        by_contra hnot
        exact hgone ⟨n, hn, hnot, howns⟩
      · exact absurd hother helse
    · rintro ⟨n, hn, hreach, howns⟩ ⟨m, hm, hnot, howns'⟩
      obtain rfl := h.owner_unique hn hm howns howns'
      exact hnot hreach
  · rw [hresult]
    constructor
    · rintro ⟨n, heq, hn⟩
      exact ⟨n, hn, heq⟩
    · rintro ⟨n, hn, heq⟩
      exact ⟨n, heq, hn⟩

/-- Without cycles a drop ends. -/
theorem dropGraph_total_of_acyclic (h : s.WellFormed profile elsewhere) {a : Option N}
    (hacyclic : s.Acyclic a) :
    ∃ result, dropGraph graphRefs (dropEntry profile) (s.names.card + 1) s a = some result :=
  dropGraph_total (erasable profile elsewhere) s.names h ((safe_iff h a).mpr hacyclic)
    (fun _ _ hn => (isSome_graphRefs h).mp hn) (Nat.lt_succ_self _)

section Pool

variable {slots : Slots N} {s₁ s₂ : Snapshot N I}

structure Passes (slots : Slots N) (elsewhere : I → ℕ) (s s₁ : Snapshot N I) : Prop where
  wellFormed : s₁.WellFormed (.noCow slots) elsewhere
  root : s₁.root = s.root
  block : s₁.block = s.block

theorem Passes.walkFrom (h : Passes slots elsewhere s s₁) (slots' : Slots N) :
    s₁.walkFrom slots' = s.walkFrom slots' := by
  rw [Snapshot.walkFrom, Snapshot.walkFrom, h.root, h.block, fits_congr h.block]

omit [DecidableEq N] in
theorem Passes.trans (h : Passes slots elsewhere s s₁) (h' : Passes slots elsewhere s₁ s₂) :
    Passes slots elsewhere s s₂ :=
  ⟨h'.wellFormed, h'.root.trans h.root, h'.block.trans h.block⟩

theorem drop_passes (h : s.WellFormed (.noCow slots) elsewhere) {n : N} (hn : n ∈ s.names)
    (hdrop : dropEntry (.noCow slots) s n = some s') :
    s'.names = s.names.erase n ∧ Passes slots elsewhere s s' := by
  obtain ⟨t, ht, h', hnames, hroot, hblock, -⟩ := h.dropEntry hn
  obtain rfl := Option.some.inj (ht.symm.trans hdrop)
  exact ⟨hnames, h', hroot, hblock⟩

omit [DecidableEq N] in
theorem targets_passes {drop graph : Snapshot N I → Option N → Option (Snapshot N I)}
    {visit : Finset N → Option N → Option (Finset N)} (hstep : ∀ {s₁ s₂ t},
      Passes slots elsewhere s s₁ → drop s₁ t = some s₂ →
        visit s₁.names t = some s₂.names ∧ graph s₁ t = some s₂ ∧ Passes slots elsewhere s s₂)
    {targets : List (Option N)} (hs : Passes slots elsewhere s s₁)
    (h : targets.foldlM drop s₁ = some s') :
    targets.foldlM visit s₁.names = some s'.names ∧ targets.foldlM graph s₁ = some s' ∧
      Passes slots elsewhere s s' := by
  induction targets generalizing s₁ with
  | nil =>
      obtain rfl := Option.some.inj h
      exact ⟨rfl, rfl, hs⟩
  | cons t targets ih =>
      obtain ⟨s₂, hs₂, hrest⟩ := Option.bind_eq_some_iff.mp h
      obtain ⟨hvisit, hgraph, hpasses⟩ := hstep hs hs₂
      obtain ⟨hvisit', hgraph', hpasses'⟩ := ih hpasses hrest
      refine ⟨?_, ?_, hpasses'⟩
      · rw [List.foldlM_cons, hvisit]
        exact hvisit'
      · rw [List.foldlM_cons, hgraph]
        exact hgraph'

theorem dropCtr_noCow_absent {free : ℕ} {n : N} (hn : n ∉ s.names) {outcome : Snapshot N I × Bool} :
    dropCtr (.noCow slots) (free + 1) s (some n) = some outcome ↔
      slots.find s.names n ≤ free + 1 ∧ outcome = (s, false) := by
  have hroot : s.getRootID n = none := if_neg hn
  by_cases hfind : slots.find s.names n ≤ free + 1
  · simp [dropCtr, getRootIDWithin, hfind, hroot, eq_comm]
  · simp [dropCtr, getRootIDWithin, hfind]

theorem dropCtr_noCow_there {free : ℕ} {n : N} (h : s.WellFormed (.noCow slots) elsewhere)
    (hn : n ∈ s.names) {outcome : Snapshot N I × Bool} :
    dropCtr (.noCow slots) (free + 1) s (some n) = some outcome ↔
      slots.find s.names n ≤ free ∧ ∃ s₁ s₂,
        (s.block (s.root n)).references.foldlM
          (fun s t => (dropCtr (.noCow slots) free s t).map Prod.fst) s = some s₁ ∧
        DropCtr.drop (.noCow slots) free s₁ n = some s₂ ∧ outcome = (s₂, true) := by
  have hroot : s.getRootID n = some (s.root n) := if_pos hn
  have hblock : s.getBlock (s.root n) = some (s.block (s.root n)) := if_pos (h.root_mem hn)
  by_cases hfind : slots.find s.names n ≤ free
  · have hfind' : slots.find s.names n ≤ free + 1 := Nat.le_succ_of_le hfind
    simp [dropCtr, getRootIDWithin, hfind, hfind', hroot, hblock, Option.bind_eq_some_iff,
      @eq_comm _ _ outcome]
  · by_cases hfind' : slots.find s.names n ≤ free + 1 <;>
      simp [dropCtr, getRootIDWithin, hfind, hfind', hroot]

omit [DecidableEq I] in
theorem walkFrom_absent {free : ℕ} {n : N} {left left' : Finset N} (hn : n ∉ left) :
    s.walkFrom slots (free + 1) left (some n) = some left' ↔
      slots.find left n ≤ free + 1 ∧ left' = left := by
  simp [Snapshot.walkFrom, walk, hn, eq_comm]

omit [DecidableEq I] in
theorem walkFrom_there {free : ℕ} {n : N} {left left' : Finset N} (hn : n ∈ left) :
    s.walkFrom slots (free + 1) left (some n) = some left' ↔
      (slots.find left n ≤ free ∧ s.Fits free (s.root n) = true) ∧
        ∃ left₁, (s.block (s.root n)).references.foldlM (s.walkFrom slots free) left = some left₁ ∧
          slots.remove left₁ n ≤ free ∧ left' = left₁.erase n := by
  simp [Snapshot.walkFrom, walk, hn, Option.bind_eq_some_iff, @eq_comm _ _ left']

/-- A container stays until the containers that it refers to are dropped. -/
theorem mem_names_of_targets {free : ℕ} {n : N} (h : s.WellFormed profile elsewhere)
    (hn : n ∈ s.names) (h₁ : s₁.WellFormed profile elsewhere)
    (hfold : (s.block (s.root n)).references.foldlM (fun s t =>
      (dropGraph graphRefs (dropEntry profile) free s t).map Prod.fst) s = some s₁) :
    n ∈ s₁.names := by
  have hdropped := dropTargets_spec (erasable profile elsewhere) (by
    intro s s' t hs hdrop
    obtain ⟨⟨s'', result⟩, houtcome, rfl⟩ := Option.map_eq_some_iff.mp hdrop
    exact (dropGraph_spec (erasable profile elsewhere) hs houtcome).1) h hfold
  obtain ⟨-, hloses⟩ := hdropped.loses (erasable profile elsewhere) h
  have hedge : ∀ t ∈ (s.block (s.root n)).references, Lib.Refers graphRefs s (some n) t :=
    fun t ht => ⟨n, _, rfl, by rw [graphRefs_eq h, if_pos hn], ht⟩
  obtain ⟨⟨t, ht, hreach⟩, -⟩ | ⟨-, hsame⟩ := hloses n
  · -- a container that is dropped on the way is on a cycle
    have hcycle : Relation.TransGen (Lib.Refers graphRefs s) t t :=
      Relation.TransGen.tail' hreach (hedge t ht)
    exact absurd hcycle ((hdropped.2 t ht).2 t .refl)
  · rw [← isSome_graphRefs h₁, hsame, isSome_graphRefs h]
    exact hn

def RunsAs (slots : Slots N) (elsewhere : I → ℕ) (free : ℕ) : Prop :=
  ∀ {s s' : Snapshot N I} {a : Option N} {result : Bool}, s.WellFormed (.noCow slots) elsewhere →
    dropCtr (.noCow slots) free s a = some (s', result) →
      s.walkFrom slots free s.names a = some s'.names ∧
        dropGraph graphRefs (dropEntry (.noCow slots)) free s a = some (s', result) ∧
        Passes slots elsewhere s s'

theorem targets_noCow {free : ℕ} (hruns : RunsAs slots elsewhere free)
    (h : s.WellFormed (.noCow slots) elsewhere) {targets : List (Option N)}
    (hfold : targets.foldlM (fun s t => (dropCtr (.noCow slots) free s t).map Prod.fst) s =
      some s') :
    targets.foldlM (s.walkFrom slots free) s.names = some s'.names ∧
      targets.foldlM (fun s t =>
        (dropGraph graphRefs (dropEntry (.noCow slots)) free s t).map Prod.fst) s = some s' ∧
      Passes slots elsewhere s s' := by
  refine targets_passes ?_ ⟨h, rfl, rfl⟩ hfold
  intro s₁ s₂ t hs₁ hdrop
  obtain ⟨⟨s₃, result⟩, houtcome, rfl⟩ := Option.map_eq_some_iff.mp hdrop
  obtain ⟨hwalk, hgraph, hpasses⟩ := hruns hs₁.wellFormed houtcome
  rw [hs₁.walkFrom] at hwalk
  exact ⟨hwalk, by rw [hgraph]; rfl, hs₁.trans hpasses⟩

/-- **A drop in a pool** that ends is a walk that the pool has room for, and what it does is what it
would do with any number of slots. -/
theorem dropCtr_noCow (free : ℕ) : RunsAs slots elsewhere free := by
  induction free with
  | zero =>
      intro s s' a result h hdrop
      cases hdrop
  | succ free ih =>
      intro s s' a result h hdrop
      cases a with
      | none => cases hdrop
      | some name =>
          by_cases hname : name ∈ s.names
          · obtain ⟨hfind, s₁, s₂, hfold, hlast, heq⟩ := (dropCtr_noCow_there h hname).mp hdrop
            obtain ⟨rfl, rfl⟩ := Prod.mk.inj heq
            obtain ⟨hvisit, hgraph, hpasses⟩ := targets_noCow ih h hfold
            have hmem := mem_names_of_targets h hname hpasses.wellFormed hgraph
            rw [hpasses.wellFormed.drop_noCow hmem] at hlast
            obtain ⟨⟨hfits, hremove⟩, hentry⟩ := Option.ite_none_right_eq_some.mp hlast
            obtain ⟨hnames, hpasses'⟩ := drop_passes hpasses.wellFormed hmem hentry
            rw [fits_congr hpasses.block, hpasses.root] at hfits
            refine ⟨(walkFrom_there hname).mpr ⟨⟨hfind, hfits⟩, s₁.names, hvisit, hremove, hnames⟩,
              ?_, hpasses.trans hpasses'⟩
            rw [dropGraph, graphRefs_eq h, if_pos hname]
            simp only [hgraph, hentry, Option.bind_eq_bind, Option.bind_some]
          · obtain ⟨hfind, heq⟩ := (dropCtr_noCow_absent hname).mp hdrop
            obtain ⟨rfl, rfl⟩ := Prod.mk.inj heq
            refine ⟨(walkFrom_absent hname).mpr ⟨hfind, rfl⟩, ?_, h, rfl, rfl⟩
            rw [dropGraph, graphRefs_eq h, if_neg hname]

omit [DecidableEq N] in
theorem targets_of_walk {drop : Snapshot N I → Option N → Option (Snapshot N I)}
    {visit : Finset N → Option N → Option (Finset N)} (hstep : ∀ {s₁ t left},
      Passes slots elsewhere s s₁ → visit s₁.names t = some left →
        ∃ s₂, drop s₁ t = some s₂ ∧ s₂.names = left ∧ Passes slots elsewhere s s₂)
    {targets : List (Option N)} {left : Finset N} (hs : Passes slots elsewhere s s₁)
    (h : targets.foldlM visit s₁.names = some left) :
    ∃ s', targets.foldlM drop s₁ = some s' ∧ s'.names = left := by
  induction targets generalizing s₁ with
  | nil => exact ⟨s₁, rfl, Option.some.inj h⟩
  | cons t targets ih =>
      obtain ⟨left₁, hvisit, hrest⟩ := Option.bind_eq_some_iff.mp h
      obtain ⟨s₂, hs₂, rfl, hpasses⟩ := hstep hs hvisit
      obtain ⟨s', hs', hleft⟩ := ih hpasses hrest
      refine ⟨s', ?_, hleft⟩
      rw [List.foldlM_cons, hs₂]
      exact hs'

/-- A walk that the pool has room for is a drop that ends. -/
theorem dropCtr_of_walk {free : ℕ} {a : Option N} {left : Finset N}
    (h : s.WellFormed (.noCow slots) elsewhere)
    (hwalk : s.walkFrom slots free s.names a = some left) :
    ∃ s' result, dropCtr (.noCow slots) free s a = some (s', result) := by
  induction free generalizing s a left with
  | zero => cases hwalk
  | succ free ih =>
      cases a with
      | none => cases hwalk
      | some name =>
          by_cases hname : name ∈ s.names
          · obtain ⟨⟨hfind, hfits⟩, left₁, hvisit, hremove, -⟩ := (walkFrom_there hname).mp hwalk
            have hstep : ∀ {s₁ : Snapshot N I} {t left}, Passes slots elsewhere s s₁ →
                s.walkFrom slots free s₁.names t = some left →
                  ∃ s₂, (dropCtr (.noCow slots) free s₁ t).map Prod.fst = some s₂ ∧
                    s₂.names = left ∧ Passes slots elsewhere s s₂ := by
              intro s₁ t left hs₁ hvisit
              rw [← hs₁.walkFrom] at hvisit
              obtain ⟨s₂, result, hdrop⟩ := ih hs₁.wellFormed hvisit
              obtain ⟨hwalk, -, hpasses⟩ := dropCtr_noCow free hs₁.wellFormed hdrop
              refine ⟨s₂, by rw [hdrop]; rfl, ?_, hs₁.trans hpasses⟩
              exact Option.some.inj (hwalk.symm.trans hvisit)
            obtain ⟨s₁, hfold, hleft⟩ := targets_of_walk hstep ⟨h, rfl, rfl⟩ hvisit
            obtain ⟨-, hgraph, hpasses⟩ := targets_noCow (dropCtr_noCow free) h hfold
            have hmem := mem_names_of_targets h hname hpasses.wellFormed hgraph
            obtain ⟨s₂, hs₂, -⟩ := hpasses.wellFormed.dropEntry hmem
            refine ⟨s₂, true, (dropCtr_noCow_there h hname).mpr ⟨hfind, s₁, s₂, hfold, ?_, rfl⟩⟩
            rw [hpasses.wellFormed.drop_noCow hmem, if_pos, hs₂]
            rw [fits_congr hpasses.block, hpasses.root, hleft]
            exact ⟨hfits, hremove⟩
          · obtain ⟨hfind, -⟩ := (walkFrom_absent hname).mp hwalk
            exact ⟨s, false, (dropCtr_noCow_absent hname).mpr ⟨hfind, rfl⟩⟩

end Pool

/-- **A drop that ends**, in either profile. -/
theorem dropCtr_spec (h : s.WellFormed profile elsewhere) {free : ℕ} {a : Option N} {result : Bool}
    (hdrop : dropCtr profile free s a = some (s', result)) :
    s.Dropped profile elsewhere a s' result ∧ s.Acyclic a := by
  cases profile with
  | noCow slots => exact dropGraph_dropped h (dropCtr_noCow free h hdrop).2.1
  | cow =>
      rw [dropCtr_cow] at hdrop
      exact dropGraph_dropped h hdrop

/-- A drop that comes to an end has dropped what it should, and could do so. -/
theorem ends_spec (h : s.WellFormed profile elsewhere) {free : ℕ} {a : Option N} {result : Bool}
    (hends : Ends profile free s a (s', result)) :
    s.Dropped profile elsewhere a s' result ∧ s.Droppable profile free a := by
  cases profile with
  | noCow slots =>
      obtain ⟨hdropped, hacyclic⟩ := dropCtr_spec h hends
      exact ⟨hdropped, hacyclic, s'.names, (dropCtr_noCow free h hends).1⟩
  | cow =>
      obtain ⟨levels, hdrop⟩ := hends
      obtain ⟨hdropped, hacyclic⟩ := dropCtr_spec h (hdrop levels (Nat.le_refl levels))
      exact ⟨hdropped, hacyclic, trivial⟩

theorem ends_of_droppable (h : s.WellFormed profile elsewhere) {free : ℕ} {a : Option N}
    (hdroppable : s.Droppable profile free a) : ∃ outcome, Ends profile free s a outcome := by
  cases profile with
  | noCow slots =>
      obtain ⟨-, left, hwalk⟩ := hdroppable
      obtain ⟨s', result, hdrop⟩ := dropCtr_of_walk h hwalk
      exact ⟨(s', result), hdrop⟩
  | cow =>
      obtain ⟨outcome, hdrop⟩ := dropGraph_total_of_acyclic h hdroppable.1
      refine ⟨outcome, s.names.card + 1, fun more hmore => ?_⟩
      rw [dropCtr_cow]
      exact dropGraph_le hmore hdrop

end Containers

variable {B : Type} [DecidableEq N] [LinearOrder I] [Inhabited I]

/-- What a drop without CoW does to the tree of the blocks. In between the removals the directory
changes its own blocks, and no removal is a merge that goes wrong. -/
def Snapshot.Stored (layout : NodeLayout) (s s' : Snapshot N I) (x : Session I B) : Prop :=
  ∀ ops : List (Update I), x.Agrees layout → (∀ b ∈ s.ids, x.map b ≠ none) →
    s'.removed = s.removed ++ removals s.ids ops →
    EveryStep (Session.step layout) (Session.Shared layout s.ids) x ops →
    ∃ x', ops.foldlM (Session.step layout) x = some x' ∧ x.Drops layout s.ids s'.ids x'

omit [DecidableEq N] in
theorem Snapshot.Dropped.stored {s s' : Snapshot N I} {profile : Profile N} {elsewhere : I → ℕ}
    {a : Option N} {result : Bool} (h : s.Dropped profile elsewhere a s' result)
    (layout : NodeLayout) (x : Session I B) : s.Stored layout s' x := by
  intro ops hagrees hthere hremovals hrun
  obtain ⟨ids, hids, hnodup, hmem⟩ := h.removed
  obtain rfl : ids = removals s.ids ops := List.append_cancel_left (hids.symm.trans hremovals)
  exact hagrees.drops hnodup hmem hthere hrun

/-- A drop of a container ends and drops exactly the closure of the container, if and only if no
cycle of references and no reference to the null id can be reached from it and the pool has room. -/
theorem dropCtr_closure_iff (profile : Profile N) (layout : NodeLayout) (elsewhere : I → ℕ)
    (s : Snapshot N I) (h : s.WellFormed profile elsewhere) (free : ℕ) (a : Option N) :
    (∃ s' result, Ends profile free s a (s', result) ∧ s.Dropped profile elsewhere a s' result ∧
      (profile ≠ .cow → ∀ x : Session I B, s.Stored layout s' x)) ↔ s.Droppable profile free a := by
  constructor
  · rintro ⟨s', result, hends, -, -⟩
    exact (ends_spec h hends).2
  · intro hdroppable
    obtain ⟨⟨s', result⟩, hends⟩ := ends_of_droppable h hdroppable
    have hdropped := (ends_spec h hends).1
    exact ⟨s', result, hends, hdropped, fun _ x => hdropped.stored layout x⟩

/-- Container 0 has two levels of blocks and refers to container 1 twice, and to one that is not
there. -/
def shared : Snapshot ℕ ℕ where
  names := {0, 1}
  root n := if n = 0 then 7 else 4
  ids := {4, 6, 7}
  block b := if b = 7 then ⟨[6], [some 1, some 9, some 1]⟩ else ⟨[], []⟩
  refs _ := 1
  removed := []

def twoLevels : Slots ℕ := ⟨fun _ _ => 2, fun _ _ => 3⟩

theorem shared_wellFormed : shared.WellFormed (.noCow twoLevels) fun _ => 0 := by
  have hrooted : ∀ b, 0 < shared.entries b → b ∈ shared.ids := by
    intro b hb
    obtain ⟨n, hn⟩ := Finset.card_pos.mp hb
    obtain ⟨hmem, rfl⟩ := Finset.mem_filter.mp hn
    exact (by decide : ∀ n ∈ shared.names, shared.root n ∈ shared.ids) n hmem
  exact ⟨⟨by decide, hrooted, by decide⟩, ⟨fun b => if b = 7 then 1 else 0, by decide⟩,
    fun _ => rfl, by decide⟩

theorem shared_refers {a b : Option ℕ} (h : shared.Refers a b) :
    a = some 0 ∧ (b = some 1 ∨ b = some 9) := by
  obtain ⟨n, hn, rfl, hb⟩ := h
  have hall : ∀ n ∈ shared.names, ∀ b ∈ (shared.block (shared.root n)).references,
      some n = some 0 ∧ (b = some 1 ∨ b = some 9) := by decide
  exact hall n hn b hb

theorem shared_droppable : shared.Droppable (.noCow twoLevels) 256 (some 0) := by
  refine ⟨⟨?_, ?_⟩, Option.isSome_iff_exists.mp (by decide +kernel)⟩
  · intro hnone
    obtain heq | ⟨_, -, hlast⟩ := hnone.cases_tail
    · cases heq
    · obtain heq | heq := (shared_refers hlast).2 <;> cases heq
  · intro a _ hcycle
    obtain ⟨_, hfirst, -⟩ := Relation.TransGen.head'_iff.mp hcycle
    obtain ⟨_, -, hlast⟩ := Relation.TransGen.tail'_iff.mp hcycle
    rw [(shared_refers hfirst).1] at hlast
    obtain heq | heq := (shared_refers hlast).2 <;> cases heq

def blocks : Session ℕ Unit :=
  ((TwoSnapshots.updates.take 3).foldlM (Session.step TwoSnapshots.small)
    TwoSnapshots.session).get (by decide +kernel)

theorem blocks_agrees : blocks.Agrees TwoSnapshots.small := by
  have hrun : EveryStep (Session.step TwoSnapshots.small)
      (Session.Shared TwoSnapshots.small (∅ : Finset ℕ)) TwoSnapshots.session
      (TwoSnapshots.updates.take 3) := by decide +kernel
  obtain ⟨s', hfold, hagrees, -⟩ := (TwoSnapshots.agrees TwoSnapshots.small).run_removals
    (by decide) (by decide) hrun
  obtain rfl : blocks = s' := Option.some.inj ((Option.some_get _).trans hfold)
  exact hagrees

/-- The containers are gone, and their blocks are gone from the tree. -/
theorem dropCtr_closure_shared : shared.WellFormed (.noCow twoLevels) (fun _ => 0) ∧
    ∃ s' result, Ends (.noCow twoLevels) 256 shared (some 0) (s', result) ∧
      shared.Dropped (.noCow twoLevels) (fun _ => 0) (some 0) s' result ∧
      ∃ x', [Update.remove 4, .remove 6, .remove 7].foldlM (Session.step TwoSnapshots.small) blocks =
        some x' ∧ blocks.Drops TwoSnapshots.small shared.ids s'.ids x' := by
  obtain ⟨s', result, hends, hdropped, hstored⟩ := (dropCtr_closure_iff (.noCow twoLevels)
    TwoSnapshots.small (fun _ => 0) shared shared_wellFormed 256 (some 0)).mpr shared_droppable
  have hremoved : s'.removed = [4, 6, 7] := by
    have hrun : (dropCtr (.noCow twoLevels) 256 shared (some 0)).map (fun r => r.1.removed) =
        some [4, 6, 7] := by decide +kernel
    have hends' : dropCtr (.noCow twoLevels) 256 shared (some 0) = some (s', result) := hends
    rw [hends'] at hrun
    exact Option.some.inj hrun
  refine ⟨shared_wellFormed, s', result, hends, hdropped,
    hstored (by rintro ⟨⟩) blocks _ blocks_agrees (by decide +kernel) (hremoved.trans rfl)
      (by decide +kernel)⟩

def loop : Snapshot ℕ ℕ where
  names := {0}
  root n := n
  ids := {0}
  block _ := ⟨[], [some 0]⟩
  refs _ := 1
  removed := []

theorem loop_wellFormed (profile : Profile ℕ) : loop.WellFormed profile fun _ => 0 := by
  have hrooted : ∀ b, 0 < loop.entries b → b ∈ loop.ids := by
    intro b hb
    obtain ⟨n, hn⟩ := Finset.card_pos.mp hb
    obtain ⟨hmem, rfl⟩ := Finset.mem_filter.mp hn
    exact hmem
  refine ⟨⟨by decide, hrooted, by decide⟩, ⟨fun _ => 0, by decide⟩, ?_⟩
  cases profile with
  | noCow slots => exact ⟨fun _ => rfl, by decide⟩
  | cow =>
      have hcounted : ∀ b ∈ loop.ids,
          loop.refs b = edges loop.children loop.ids b + (loop.entries b + 0) := by decide
      exact hcounted

theorem drop_loop_diverges : (∀ profile, loop.WellFormed profile fun _ => 0) ∧
    ∀ profile free, dropCtr profile free loop (some 0) = none := by
  refine ⟨loop_wellFormed, fun profile free => ?_⟩
  cases hdrop : dropCtr profile free loop (some 0) with
  | none => rfl
  | some outcome =>
      have hacyclic := (dropCtr_spec (loop_wellFormed profile) hdrop).2
      have hedge : loop.Refers (some 0) (some 0) := ⟨0, by decide, rfl, List.mem_singleton.mpr rfl⟩
      exact absurd (Relation.TransGen.single hedge) (hacyclic.2 (some 0) .refl)

end Memoria.DropCtr

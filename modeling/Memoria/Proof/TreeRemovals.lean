import Memoria.Proof.TreeIsolation

/-!
# Removals of blocks from a tree

A caller that owns some of the keys of a tree removes them one by one, while another caller makes
updates of its own keys in between.
-/

namespace Memoria.PersistentTree

open Lib

variable {K B : Type} [LinearOrder K] [Inhabited K] {layout : NodeLayout} {s s' : Session K B}
  {keys : Finset K}

def Update.key : Update K → K
  | .assign key _ => key
  | .remove key => key

def Update.value : Update K → Option Value
  | .assign _ value => some value
  | .remove _ => none

def removals (keys : Finset K) (ops : List (Update K)) : List K :=
  (ops.map Update.key).filter fun key => key ∈ keys

/-- The first caller only removes keys, and both stay clear of the merges that go wrong. -/
def Session.Shared (layout : NodeLayout) (keys : Finset K) (s : Session K B) (op : Update K) : Prop :=
  s.CallOk layout op ∧ (op.key ∈ keys → op.value = none) ∧ (op.key ∉ keys → s.Present op)

instance (s : Session K B) (op : Update K) : Decidable (s.Shared layout keys op) :=
  inferInstanceAs (Decidable (_ ∧ _ ∧ _))

structure Session.Drops (layout : NodeLayout) (keys left : Finset K) (s s' : Session K B) : Prop where
  agrees : s'.Agrees layout
  find : ∀ key ∈ keys, s'.tree.find layout key = some (if key ∈ left then s.map key else none)
  isolated : s.Isolated layout s'

theorem Session.step_map {op : Update K} (hstep : s.step layout op = some s') :
    s'.map = Function.update s.map op.key op.value := by
  cases op with
  | assign key value =>
      obtain ⟨_, -, heq⟩ := Option.bind_eq_some_iff.mp hstep
      cases heq
      rfl
  | remove key =>
      obtain ⟨_, -, heq⟩ := Option.bind_eq_some_iff.mp hstep
      cases heq
      rfl

theorem Session.Agrees.step_leaves (h : s.Agrees layout) {op : Update K} (hok : s.CallOk layout op)
    (hpresent : s.Present op) : ∃ s', s.step layout op = some s' ∧ s'.Agrees layout ∧ s.Leaves s' := by
  obtain ⟨s', hstep, hagrees⟩ := h.step hok hpresent
  obtain ⟨s₂, hstep', -, hleaves⟩ := h.sound.step hok
  obtain rfl := Option.some.inj (hstep.symm.trans hstep')
  exact ⟨s', hstep, hagrees, hleaves⟩

/-- The keys that are removed are gone, and the others have their values. -/
theorem Session.Agrees.run_removals (h : s.Agrees layout) {ops : List (Update K)}
    (hnodup : (removals keys ops).Nodup) (hthere : ∀ key ∈ removals keys ops, s.map key ≠ none)
    (hrun : EveryStep (Session.step layout) (Session.Shared layout keys) s ops) :
    ∃ s', ops.foldlM (Session.step layout) s = some s' ∧ s'.Agrees layout ∧ s.Leaves s' ∧
      ∀ key ∈ keys, s'.map key = if key ∈ removals keys ops then none else s.map key := by
  induction ops generalizing s with
  | nil => exact ⟨s, rfl, h, .refl s, fun key _ => by simp [removals]⟩
  | cons op ops ih =>
      obtain ⟨⟨hok, hnone, hpresent⟩, hrest⟩ := hrun
      by_cases hkey : op.key ∈ keys
      · have hremovals : removals keys (op :: ops) = op.key :: removals keys ops :=
          List.filter_cons_of_pos (by simpa using hkey)
        rw [hremovals] at hnodup hthere ⊢
        obtain ⟨hnot, hnodup⟩ := List.nodup_cons.mp hnodup
        have hpresent' : s.Present op := by
          cases op with
          | assign key value => trivial
          | remove key => exact Option.ne_none_iff_exists'.mp (hthere key List.mem_cons_self)
        obtain ⟨s₁, hstep, h₁, hleaves⟩ := h.step_leaves hok hpresent'
        have hmap := Session.step_map hstep
        rw [hnone hkey] at hmap
        obtain ⟨s', hfold, h', hleaves', hmap'⟩ := ih h₁ hnodup (by
          intro key hmem
          have hne : key ≠ op.key := fun heq => hnot (heq ▸ hmem)
          rw [hmap, Function.update_of_ne hne]
          exact hthere key (List.mem_cons_of_mem _ hmem)) (hrest s₁ hstep)
        refine ⟨s', by rw [List.foldlM_cons, hstep]; exact hfold, h', hleaves.trans hleaves', ?_⟩
        intro key hmem
        rw [hmap' key hmem, hmap]
        by_cases heq : key = op.key
        · simp [heq]
        · simp [heq]
      · have hremovals : removals keys (op :: ops) = removals keys ops :=
          List.filter_cons_of_neg (by simpa using hkey)
        rw [hremovals] at hnodup hthere ⊢
        obtain ⟨s₁, hstep, h₁, hleaves⟩ := h.step_leaves hok (hpresent hkey)
        have hmap : ∀ key ∈ keys, s₁.map key = s.map key := by
          intro key hmem
          have hne : key ≠ op.key := by
            rintro rfl
            exact hkey hmem
          rw [Session.step_map hstep, Function.update_of_ne hne]
        obtain ⟨s', hfold, h', hleaves', hmap'⟩ := ih h₁ hnodup (by
          intro key hmem
          have hkeys : key ∈ keys := by simpa using List.of_mem_filter hmem
          rw [hmap key hkeys]
          exact hthere key hmem) (hrest s₁ hstep)
        refine ⟨s', by rw [List.foldlM_cons, hstep]; exact hfold, h', hleaves.trans hleaves', ?_⟩
        intro key hmem
        rw [hmap' key hmem, hmap key hmem]

/-- **Removals.** The keys of the first caller that stay are those that it does not remove. -/
theorem Session.Agrees.drops (h : s.Agrees layout) {ops : List (Update K)} {left : Finset K}
    (hnodup : (removals keys ops).Nodup)
    (hremoved : ∀ key, key ∈ removals keys ops ↔ key ∈ keys ∧ key ∉ left)
    (hthere : ∀ key ∈ keys, s.map key ≠ none)
    (hrun : EveryStep (Session.step layout) (Session.Shared layout keys) s ops) :
    ∃ s', ops.foldlM (Session.step layout) s = some s' ∧ s.Drops layout keys left s' := by
  obtain ⟨s', hfold, h', hleaves, hmap⟩ := h.run_removals hnodup
    (fun key hmem => hthere key ((hremoved key).mp hmem).1) hrun
  refine ⟨s', hfold, h', ?_, hleaves.isolated⟩
  intro key hkey
  rw [h'.represents.find key, hmap key hkey]
  by_cases hleft : key ∈ left
  · simp [hleft, hremoved]
  · simp [hleft, hremoved, hkey]

end Memoria.PersistentTree

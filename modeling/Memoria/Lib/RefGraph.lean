import Mathlib.Algebra.BigOperators.Group.Finset.Basic
import Mathlib.Algebra.Order.BigOperators.Group.Finset
import Mathlib.Logic.Relation

/-!
# Counted references

A finite graph of nodes with references to some of them from outside. Each node is referred to, so
that in a graph without cycles the nodes are those that the references from outside lead to. Giving
up one reference keeps this up, if a node without references goes and its own references are given
up in turn.
-/

namespace Memoria.Lib

variable {ι : Type} [DecidableEq ι] (children : ι → List ι)

def edges (live : Finset ι) (b : ι) : ℕ :=
  ∑ i ∈ live, (children i).count b

def Below (b c : ι) : Prop := c ∈ children b

structure Held (live : Finset ι) (roots : ι → ℕ) : Prop where
  closed : ∀ b ∈ live, ∀ c ∈ children b, c ∈ live
  rooted : ∀ b, 0 < roots b → b ∈ live
  counted : ∀ b ∈ live, 0 < edges children live b + roots b

variable {children} {live : Finset ι} {roots : ι → ℕ} {id : ι}

theorem edges_erase (hid : id ∈ live) (b : ι) :
    edges children live b = edges children (live.erase id) b + (children id).count b :=
  (Finset.sum_erase_add live _ hid).symm

theorem not_mem_children_of_edges {b c : ι} (h : edges children live c = 0) (hb : b ∈ live) :
    c ∉ children b := by
  have hzero := (Finset.sum_eq_zero_iff.mp h) b hb
  exact List.count_eq_zero.mp hzero

def addRef (roots : ι → ℕ) (id : ι) (b : ι) : ℕ := roots b + if b = id then 1 else 0

@[simp] theorem addRef_self (roots : ι → ℕ) (id : ι) : addRef roots id id = roots id + 1 := by
  simp [addRef]

theorem addRef_of_ne {b : ι} (h : b ≠ id) (roots : ι → ℕ) : addRef roots id b = roots b := by
  simp [addRef, h]

theorem le_addRef (roots : ι → ℕ) (id b : ι) : roots b ≤ addRef roots id b := by
  simp [addRef]

/-- A node that keeps a reference stays. -/
theorem Held.keep (h : Held children live (addRef roots id))
    (hleft : 0 < edges children live id + roots id) : Held children live roots where
  closed := h.closed
  rooted b hb := h.rooted b (Nat.lt_of_lt_of_le hb (le_addRef roots id b))
  counted b hb := by
    by_cases heq : b = id
    · rw [heq]
      exact hleft
    · rw [← addRef_of_ne heq roots]
      exact h.counted b hb

/-- A node without references goes, and its references are then references from outside. -/
theorem Held.open (h : Held children live (addRef roots id))
    (hlast : edges children live id + roots id = 0) :
    Held children (live.erase id) (fun b => roots b + (children id).count b) := by
  have hid : id ∈ live := h.rooted id (by simp)
  have hzero : edges children live id = 0 := by omega
  constructor
  · intro b hb c hc
    have hb' := Finset.mem_of_mem_erase hb
    refine Finset.mem_erase.mpr ⟨?_, h.closed b hb' c hc⟩
    rintro rfl
    exact not_mem_children_of_edges hzero hb' hc
  · intro b hb
    refine Finset.mem_erase.mpr ⟨?_, ?_⟩
    · rintro rfl
      have hcount : (children b).count b = 0 :=
        List.count_eq_zero.mpr (not_mem_children_of_edges hzero hid)
      omega
    · by_cases hroot : 0 < roots b
      · exact h.rooted b (Nat.lt_of_lt_of_le hroot (le_addRef roots id b))
      · exact h.closed id hid b (List.count_pos_iff.mp (by omega))
  · intro b hb
    have hcounted := h.counted b (Finset.mem_of_mem_erase hb)
    rw [addRef_of_ne (Finset.ne_of_mem_erase hb), edges_erase hid] at hcounted
    omega

theorem Held.mem_of_reach (h : Held children live roots) {r b : ι} (hr : 0 < roots r)
    (hpath : Relation.ReflTransGen (Below children) r b) : b ∈ live := by
  induction hpath with
  | refl => exact h.rooted r hr
  | tail _ hedge ih => exact h.closed _ ih _ hedge

/-- Without cycles a node is there exactly if a reference from outside leads to it. -/
theorem Held.mem_iff (h : Held children live roots) {level : ι → ℕ}
    (hlevel : ∀ b ∈ live, ∀ c ∈ children b, level c < level b) {b : ι} :
    b ∈ live ↔ ∃ r, 0 < roots r ∧ Relation.ReflTransGen (Below children) r b := by
  constructor
  · intro hb
    have hbound : level b ≤ live.sup level := Finset.le_sup hb
    induction hgap : live.sup level - level b using Nat.strongRecOn generalizing b with
    | ind gap ih =>
        by_cases hroot : 0 < roots b
        · exact ⟨b, hroot, .refl⟩
        · have hedges : edges children live b ≠ 0 := by
            have := h.counted b hb
            omega
          obtain ⟨p, hp, hcount⟩ := Finset.exists_ne_zero_of_sum_ne_zero hedges
          have hmem : b ∈ children p := List.count_pos_iff.mp (Nat.pos_of_ne_zero hcount)
          have hless := hlevel p hp b hmem
          have hp' : level p ≤ live.sup level := Finset.le_sup hp
          obtain ⟨r, hr, hpath⟩ := ih _ (by omega) hp hp' rfl
          exact ⟨r, hr, hpath.tail hmem⟩
  · rintro ⟨r, hr, hpath⟩
    exact h.mem_of_reach hr hpath

/-- Where no node has two references, a node is reached from one root only. -/
theorem eq_of_single (hsingle : ∀ b ∈ live, edges children live b + roots b ≤ 1)
    (hclosed : ∀ b ∈ live, ∀ c ∈ children b, c ∈ live) {r r' b : ι} (hr : 0 < roots r)
    (hlive : r ∈ live) (hr' : 0 < roots r') (hlive' : r' ∈ live)
    (hpath : Relation.ReflTransGen (Below children) r b)
    (hpath' : Relation.ReflTransGen (Below children) r' b) : r = r' := by
  have hmem : ∀ {r b : ι}, r ∈ live → Relation.ReflTransGen (Below children) r b → b ∈ live := by
    intro r b hr hpath
    induction hpath with
    | refl => exact hr
    | tail _ hedge ih => exact hclosed _ ih _ hedge
  have hone : ∀ {p b : ι}, p ∈ live → b ∈ children p → 0 < edges children live b := by
    intro p b hp hb
    rw [edges_erase hp]
    have := List.count_pos_iff.mpr hb
    omega
  induction hpath generalizing r' with
  | refl =>
      obtain heq | ⟨p, hp, hedge⟩ := hpath'.cases_tail
      · exact heq
      · have := hsingle r hlive
        have := hone (hmem hlive' hp) hedge
        omega
  | @tail p b hp hedge ih =>
      have hplive := hmem hlive hp
      have hblive := hclosed p hplive b hedge
      have hb := hsingle b hblive
      have hpos := hone hplive hedge
      obtain heq | ⟨p', hp', hedge'⟩ := hpath'.cases_tail
      · subst heq
        omega
      · have heq : p = p' := by
          by_contra hne
          have hplive' := hmem hlive' hp'
          rw [edges_erase hplive, edges_erase (Finset.mem_erase.mpr ⟨Ne.symm hne, hplive'⟩)] at hb
          have := List.count_pos_iff.mpr hedge
          have := List.count_pos_iff.mpr hedge'
          omega
        subst heq
        exact ih hr' hlive' hp'

end Memoria.Lib

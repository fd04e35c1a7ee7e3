import Mathlib.Data.List.Nodup
import Mathlib.Data.List.Perm.Basic
import Mathlib.Logic.Function.Basic

/-!
# Chained hash tables

A table of `n` slots is a function from slots to chains of entries. It is placed when every entry is
in the slot of its key and no chain has a key twice; then no key is twice in the table.
-/

namespace Memoria.Lib

open scoped List

variable {Entry Key : Type}

def allChains (n : ℕ) (chains : ℕ → List Entry) : List Entry :=
  (List.range n).flatMap chains

structure Placed (key : Entry → Key) (slot : Key → ℕ) (n : ℕ) (chains : ℕ → List Entry) : Prop where
  slot_eq : ∀ s < n, ∀ e ∈ chains s, slot (key e) = s
  nodup : ∀ s < n, ((chains s).map key).Nodup

variable {key : Entry → Key} {slot : Key → ℕ} {n : ℕ} {chains : ℕ → List Entry}

theorem mem_allChains {e : Entry} : e ∈ allChains n chains ↔ ∃ s < n, e ∈ chains s := by
  simp [allChains]

theorem allChains_congr {others : ℕ → List Entry} (h : ∀ s < n, chains s = others s) :
    allChains n chains = allChains n others := by
  unfold allChains
  refine List.flatMap_congr fun s hs => ?_
  exact h s (List.mem_range.mp hs)

/-- One chain may be taken out in front of the others. -/
theorem allChains_perm (chains : ℕ → List Entry) {s : ℕ} (hs : s < n) :
    allChains n chains ~ chains s ++ ((List.range n).erase s).flatMap chains := by
  have hperm := List.perm_cons_erase (List.mem_range.mpr hs)
  exact hperm.flatMap_right chains

theorem flatMap_erase_update (chains : ℕ → List Entry) (s : ℕ) (chain : List Entry) :
    ((List.range n).erase s).flatMap (Function.update chains s chain) =
      ((List.range n).erase s).flatMap chains := by
  refine List.flatMap_congr fun s' hs' => ?_
  have hne : s' ≠ s := (List.nodup_range.mem_erase_iff.mp hs').1
  exact Function.update_of_ne hne _ _

/-- Replacing a chain by one with the entry `e` less takes `e` out of the table. -/
theorem allChains_erase_perm (chains : ℕ → List Entry) {s : ℕ} (hs : s < n) {e : Entry}
    {chain : List Entry} (hchain : chains s ~ e :: chain) :
    allChains n chains ~ e :: allChains n (Function.update chains s chain) := by
  have hnew := allChains_perm (Function.update chains s chain) hs
  rw [Function.update_self, flatMap_erase_update] at hnew
  calc allChains n chains
      ~ chains s ++ ((List.range n).erase s).flatMap chains := allChains_perm chains hs
    _ ~ e :: chain ++ ((List.range n).erase s).flatMap chains := hchain.append_right _
    _ ~ e :: allChains n (Function.update chains s chain) := hnew.symm.cons e

/-- Appending to a chain appends to the table. -/
theorem allChains_append_perm (chains : ℕ → List Entry) {s : ℕ} (hs : s < n) (e : Entry) :
    allChains n (Function.update chains s (chains s ++ [e])) ~ e :: allChains n chains := by
  have hchain : Function.update chains s (chains s ++ [e]) s ~ e :: chains s := by
    rw [Function.update_self]
    exact List.perm_append_singleton e (chains s)
  have hperm := allChains_erase_perm _ hs hchain
  rwa [Function.update_idem, Function.update_eq_self] at hperm

theorem allChains_update_length (chains : ℕ → List Entry) {s : ℕ} (hs : s < n) {chain : List Entry}
    (hlength : chain.length = (chains s).length) :
    (allChains n (Function.update chains s chain)).length = (allChains n chains).length := by
  have hold := (allChains_perm chains hs).length_eq
  have hnew := (allChains_perm (Function.update chains s chain) hs).length_eq
  rw [Function.update_self, flatMap_erase_update, List.length_append] at hnew
  rw [List.length_append] at hold
  omega

namespace Placed

theorem nil : Placed key slot n fun _ => [] where
  slot_eq := fun _ _ _ hmem => absurd hmem List.not_mem_nil
  nodup := fun _ _ => List.nodup_nil

theorem mem_iff (h : Placed key slot n chains) {e : Entry} (hslot : slot (key e) < n) :
    e ∈ allChains n chains ↔ e ∈ chains (slot (key e)) := by
  rw [mem_allChains]
  constructor
  · rintro ⟨s, hs, hmem⟩
    rw [h.slot_eq s hs e hmem]
    exact hmem
  · exact fun hmem => ⟨_, hslot, hmem⟩

/-- No key is twice in a placed table. -/
theorem keys_nodup (h : Placed key slot n chains) : ((allChains n chains).map key).Nodup := by
  unfold allChains
  rw [List.map_flatMap, List.nodup_flatMap]
  refine ⟨fun s hs => h.nodup s (List.mem_range.mp hs), ?_⟩
  refine List.nodup_range.pairwise_of_forall_ne fun s hs s' hs' hne => ?_
  intro k hk hk'
  obtain ⟨e, he, rfl⟩ := List.mem_map.mp hk
  obtain ⟨e', he', heq⟩ := List.mem_map.mp hk'
  have hslot := h.slot_eq s (List.mem_range.mp hs) e he
  have hslot' := h.slot_eq s' (List.mem_range.mp hs') e' he'
  rw [heq] at hslot'
  exact hne (hslot.symm.trans hslot')

theorem update (h : Placed key slot n chains) {s : ℕ} {chain : List Entry}
    (hslot : ∀ e ∈ chain, slot (key e) = s) (hnodup : (chain.map key).Nodup) :
    Placed key slot n (Function.update chains s chain) where
  slot_eq := by
    intro s' hs' e he
    by_cases heq : s' = s
    · subst heq
      rw [Function.update_self] at he
      exact hslot e he
    · rw [Function.update_of_ne heq] at he
      exact h.slot_eq s' hs' e he
  nodup := by
    intro s' hs'
    by_cases heq : s' = s
    · subst heq
      rwa [Function.update_self]
    · rw [Function.update_of_ne heq]
      exact h.nodup s' hs'

end Placed

end Memoria.Lib

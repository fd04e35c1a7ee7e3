import Memoria.Lib.LevelTree
import Memoria.Lib.SortedList

/-!
# Trees of uniform height as lists of leaves

A node at level zero is a leaf, a list of entries. A node above it is a list of children with a key
for each. What a tree holds is the list of its leaves in order; the nodes above the leaves only
group that list, and `locate` finds a leaf by its number. In an indexed tree the key of a child is
the last key of what is below it.
-/

namespace Memoria.Lib

variable {K V : Type}

def Level (K V : Type) : Nat → Type
  | 0 => List (K × V)
  | n + 1 => List (K × Level K V n)

namespace Level

variable {n : Nat}

def leaf (entries : List (K × V)) : Level K V 0 := entries

def entries (node : Level K V 0) : List (K × V) := node

def branch (children : List (K × Level K V n)) : Level K V (n + 1) := children

def children (node : Level K V (n + 1)) : List (K × Level K V n) := node

@[simp]
theorem entries_leaf (entries : List (K × V)) : (leaf entries).entries = entries := rfl

@[simp]
theorem leaf_entries (node : Level K V 0) : leaf node.entries = node := rfl

@[simp]
theorem children_branch (children : List (K × Level K V n)) :
    (branch children).children = children := rfl

@[simp]
theorem branch_children (node : Level K V (n + 1)) : branch node.children = node := rfl

def leaves : (n : Nat) → Level K V n → List (List (K × V))
  | 0, node => [node.entries]
  | n + 1, node => node.children.flatMap fun c => leaves n c.2

def leafCount (node : Level K V n) : Nat := (leaves n node).length

def leavesOf (children : List (K × Level K V n)) : List (List (K × V)) :=
  children.flatMap fun c => leaves n c.2

def locate : List (K × Level K V n) → Nat → Option (Nat × Nat)
  | [], _ => none
  | c :: children, number =>
    if number < leafCount c.2 then some (0, number)
    else (locate children (number - leafCount c.2)).map fun place => (place.1 + 1, place.2)

@[simp]
theorem leavesOf_nil : leavesOf ([] : List (K × Level K V n)) = [] := rfl

@[simp]
theorem leavesOf_cons (c : K × Level K V n) (children : List (K × Level K V n)) :
    leavesOf (c :: children) = leaves n c.2 ++ leavesOf children := List.flatMap_cons

@[simp]
theorem leavesOf_append (children children' : List (K × Level K V n)) :
    leavesOf (children ++ children') = leavesOf children ++ leavesOf children' :=
  List.flatMap_append

theorem leaves_zero (node : Level K V 0) : leaves 0 node = [node.entries] := rfl

theorem leaves_succ (node : Level K V (n + 1)) : leaves (n + 1) node = leavesOf node.children := rfl

/-- A leaf below a list of children is below one of them. -/
theorem locate_spec {children : List (K × Level K V n)} {before after : List (List (K × V))}
    {leaf : List (K × V)} (h : leavesOf children = before ++ leaf :: after) :
    ∃ left c right b a, children = left ++ c :: right
      ∧ locate children before.length = some (left.length, b.length)
      ∧ leaves n c.2 = b ++ leaf :: a
      ∧ before = leavesOf left ++ b ∧ after = a ++ leavesOf right := by
  induction children generalizing before with
  | nil =>
      rw [leavesOf_nil] at h
      exact absurd h.symm (by simp)
  | cons c children ih =>
      rw [leavesOf_cons, List.append_eq_append_iff] at h
      rw [locate]
      -- the leaf is below the first child, or the leaves of that child end before it
      have hbelow : ∀ a, leaves n c.2 = before ++ leaf :: a → after = a ++ leavesOf children →
          ∃ left c' right b a', c :: children = left ++ c' :: right
            ∧ (if before.length < leafCount c.2 then some (0, before.length)
                else (locate children (before.length - leafCount c.2)).map fun place =>
                  (place.1 + 1, place.2)) = some (left.length, b.length)
            ∧ leaves n c'.2 = b ++ leaf :: a'
            ∧ before = leavesOf left ++ b ∧ after = a' ++ leavesOf right := by
        intro a hleaves hafter
        refine ⟨[], c, children, before, a, rfl, ?_, hleaves, rfl, hafter⟩
        rw [if_pos]
        · rfl
        · simp [leafCount, hleaves]
      obtain ⟨skip, hbefore, hrest⟩ | ⟨skip, hleaves, hrest⟩ := h
      · obtain ⟨left, c', right, b, a, hchildren, hlocate, hc', hb, ha⟩ := ih hrest
        refine ⟨c :: left, c', right, b, a, by rw [hchildren]; rfl, ?_, hc', ?_, ha⟩
        · have hlen : before.length = leafCount c.2 + skip.length := by
            rw [hbefore, List.length_append]
            rfl
          rw [if_neg (by omega), show before.length - leafCount c.2 = skip.length by omega, hlocate]
          rfl
        · rw [hbefore, hb, leavesOf_cons, List.append_assoc]
      · cases skip with
        | nil =>
            rw [List.append_nil] at hleaves
            have hnext : leavesOf children = [] ++ leaf :: after := hrest.symm
            obtain ⟨left, c', right, b, a, hchildren, hlocate, hc', hb, ha⟩ := ih hnext
            refine ⟨c :: left, c', right, b, a, by rw [hchildren]; rfl, ?_, hc', ?_, ha⟩
            · have hlen : before.length = leafCount c.2 := by
                rw [leafCount, hleaves]
              rw [if_neg (by omega), hlen, Nat.sub_self]
              rw [List.length_nil] at hlocate
              rw [hlocate]
              rfl
            · rw [leavesOf_cons, List.append_assoc, ← hb, List.append_nil, hleaves]
        | cons leaf' skip =>
            rw [List.cons_append, List.cons.injEq] at hrest
            obtain ⟨rfl, hafter⟩ := hrest
            exact hbelow skip hleaves hafter

section Keys

variable [Inhabited K]

def maxKey : (n : Nat) → Level K V n → K
  | 0, node => lastKey node.entries
  | _ + 1, node => lastKey node.children

def Indexed : (n : Nat) → Level K V n → Prop
  | 0, _ => True
  | n + 1, node => node.children ≠ [] ∧ ∀ c ∈ node.children, c.1 = maxKey n c.2 ∧ Indexed n c.2

theorem Indexed.leaves_ne_nil {node : Level K V n} (h : Indexed n node) : leaves n node ≠ [] := by
  induction n with
  | zero => exact List.cons_ne_nil _ _
  | succ n ih =>
      obtain ⟨hne, hkeys⟩ := h
      obtain ⟨c, children, hnode⟩ := List.exists_cons_of_ne_nil hne
      have hc : c ∈ node.children := by
        rw [hnode]
        exact List.mem_cons_self
      rw [leaves_succ, hnode, leavesOf_cons]
      intro hnil
      exact ih (hkeys c hc).2 (List.append_eq_nil_iff.mp hnil).1

/-- Without empty leaves the key of a node is the last key below it. -/
theorem Indexed.maxKey_eq {node : Level K V n} (h : Indexed n node)
    (hne : ∀ leaf ∈ leaves n node, leaf ≠ []) :
    (leaves n node).flatten ≠ [] ∧ lastKey (leaves n node).flatten = maxKey n node := by
  induction n with
  | zero =>
      rw [leaves_zero, List.flatten_singleton]
      exact ⟨hne _ List.mem_cons_self, rfl⟩
  | succ n ih =>
      obtain ⟨hnode, hkeys⟩ := h
      obtain ⟨children, c, hlast⟩ : ∃ children c, node.children = children ++ [c] :=
        ⟨_, _, (List.dropLast_append_getLast hnode).symm⟩
      have hc : c ∈ node.children := by
        rw [hlast]
        exact List.mem_append_right _ List.mem_cons_self
      have hleaves : leaves (n + 1) node = leavesOf children ++ leaves n c.2 := by
        rw [leaves_succ, hlast, leavesOf_append, leavesOf_cons, leavesOf_nil, List.append_nil]
      rw [hleaves] at hne ⊢
      obtain ⟨hsome, hkey⟩ := ih (hkeys c hc).2 fun leaf hleaf =>
        hne leaf (List.mem_append_right _ hleaf)
      rw [List.flatten_append]
      constructor
      · exact fun hnil => hsome (List.append_eq_nil_iff.mp hnil).2
      · rw [lastKey_append_of_ne_nil _ hsome, hkey, ← (hkeys c hc).1, maxKey, hlast,
          lastKey_concat]

end Keys

end Level

section Sorted

variable [Inhabited K] {es : List (K × V)}

theorem exists_lastKey (h : es ≠ []) : ∃ e ∈ es, e.1 = lastKey es := by
  refine ⟨es.getLast h, List.getLast_mem h, ?_⟩
  rw [← lastKey_concat es.dropLast (es.getLast h), List.dropLast_append_getLast h]

theorem Sorted.le_lastKey [LinearOrder K] (h : Sorted es) {e : K × V} (he : e ∈ es) : e.1 ≤ lastKey es := by
  obtain ⟨init, last, rfl⟩ : ∃ init last, es = init ++ [last] :=
    ⟨_, _, (List.dropLast_append_getLast (List.ne_nil_of_mem he)).symm⟩
  rw [lastKey_concat]
  rw [List.mem_append, List.mem_singleton] at he
  obtain he | rfl := he
  · exact le_of_lt ((sorted_append.mp h).2.2 e he last List.mem_cons_self)
  · exact le_refl _

end Sorted

end Memoria.Lib

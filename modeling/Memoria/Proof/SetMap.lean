import Memoria.Proof.OptBuffer
import Memoria.Proof.SetMapTree

namespace Memoria.SetMap

open Lib Lib.Level

/-! Set and Map refine finite maps, as long as no leaf stays empty beside others. -/

variable {Key Value : Type} [LinearOrder Key] {n : Nat}

/-- A search by key in a sorted list of entries splits it. -/
theorem findGEForward_split {S : Type} {es : List (Key × S)}
    (hsorted : (es.map Prod.fst).Pairwise (· ≤ ·)) (key : Key) :
    ∃ left right, es = left ++ right
      ∧ ValueArray.findGEForward (es.map Prod.fst) key = left.length
      ∧ (∀ e ∈ left, e.1 < key) ∧ ∀ e ∈ right, key ≤ e.1 := by
  rw [ValueArray.findGEForward_eq hsorted]
  induction es with
  | nil => exact ⟨[], [], rfl, rfl, by simp, by simp⟩
  | cons e es ih =>
      rw [List.map_cons, List.pairwise_cons] at hsorted
      obtain ⟨hle, hrest⟩ := hsorted
      by_cases hkey : key ≤ e.1
      · refine ⟨[], e :: es, rfl, by simp [List.findIdx_cons, hkey], by simp, ?_⟩
        intro d hd
        obtain rfl | hd := List.mem_cons.mp hd
        · exact hkey
        · exact hkey.trans (hle d.1 (List.mem_map_of_mem hd))
      · obtain ⟨left, right, rfl, hidx, hleft, hright⟩ := ih hrest
        refine ⟨e :: left, right, rfl, ?_, ?_, hright⟩
        · rw [List.map_cons, List.findIdx_cons, hidx]
          simp [hkey]
        · intro d hd
          obtain rfl | hd := List.mem_cons.mp hd
          · exact lt_of_not_ge hkey
          · exact hleft d hd

/-- The child the search goes down: the keys left of it are less, and its own is not, unless it is
the last one. -/
theorem search_child {children : List (Key × Level Key Value n)} (hchildren : children ≠ [])
    (hsorted : (children.map Prod.fst).Pairwise (· ≤ ·)) (key : Key) :
    ∃ left c right, children = left ++ c :: right
      ∧ (if ValueArray.findGEForward (children.map Prod.fst) key < children.length then
          ValueArray.findGEForward (children.map Prod.fst) key
        else ValueArray.findGEForward (children.map Prod.fst) key - 1) = left.length
      ∧ (∀ d ∈ left, d.1 < key) ∧ (key ≤ c.1 ∨ right = []) := by
  obtain ⟨left, right, rfl, hpos, hleft, hright⟩ := findGEForward_split hsorted key
  rw [hpos]
  cases right with
  | cons c right =>
      refine ⟨left, c, right, rfl, if_pos (by simp), hleft, Or.inl ?_⟩
      exact hright c List.mem_cons_self
  | nil =>
      rw [List.append_nil] at hchildren ⊢
      obtain ⟨init, c, rfl⟩ := (List.eq_nil_or_concat' left).resolve_left hchildren
      refine ⟨init, c, [], rfl, by simp, ?_, Or.inr rfl⟩
      exact fun d hd => hleft d (List.mem_append_left _ hd)

variable {s s' : Session Key Value} {key : Key}

structure Place (s : Session Key Value) (key : Key) (it : Iter)
    (before : List (List (Key × Value))) (pre post : List (Key × Value))
    (after : List (List (Key × Value))) : Prop where
  found : s.tree.findMaxGE key = some it
  stands : s.tree.At it before pre (((s.map key).map fun v => (key, v)).toList ++ post) after
  less : ∀ e ∈ before.flatten ++ pre, e.1 < key
  greater : ∀ e ∈ post ++ after.flatten, key < e.1
  last : s.map key = none → post = [] → after = []

namespace Place

variable {it : Iter} {before after : List (List (Key × Value))} {pre post : List (Key × Value)}
  (h : Place s key it before pre post after)
include h

theorem entries_eq :
    s.tree.entries = around (before.flatten ++ pre) key (s.map key) (post ++ after.flatten) := by
  rw [h.stands.entries, around]
  simp

theorem entryAt_eq :
    s.tree.entryAt it = (((s.map key).map fun v => (key, v)).toList ++ post).head? := by
  rw [Tree.entryAt, h.stands.leaves, h.stands.leaf, h.stands.pos,
    List.getElem?_append_right (Nat.le_refl _), Nat.sub_self, List.getElem?_cons_zero,
    Option.bind_some, List.getElem?_append_right (Nat.le_refl _), Nat.sub_self,
    List.head?_eq_getElem?]

theorem isFound_eq : s.tree.isFound it key = (s.map key).isSome := by
  rw [Tree.isFound, h.entryAt_eq]
  cases s.map key with
  | some v => simp
  | none =>
      cases post with
      | nil => rfl
      | cons e post =>
          have hne : e.1 ≠ key := ne_of_gt (h.greater e (by simp))
          simp [hne]

theorem value_eq (hsome : (s.map key).isSome = true) :
    (s.tree.entryAt it).map Prod.snd = s.map key := by
  obtain ⟨v, hv⟩ := Option.isSome_iff_exists.mp hsome
  rw [h.entryAt_eq, hv]
  rfl

theorem lands : s.tree.Lands key it := by
  set found := ((s.map key).map fun v => (key, v)).toList with hfound
  have hentries : s.tree.entries
      = (before.flatten ++ pre) ++ (found ++ post ++ after.flatten) := by
    rw [h.stands.entries]
  have hoffset : s.tree.offset it = (before.flatten ++ pre).length := by
    rw [Tree.offset, h.stands.leaves, h.stands.leaf, h.stands.pos, List.take_left,
      List.length_append]
  rw [Tree.Lands, hoffset, hentries, List.take_left, List.drop_left]
  refine ⟨by simp, h.less, ?_, ?_⟩
  · intro e he
    rw [List.append_assoc, List.mem_append] at he
    obtain he | he := he
    · obtain ⟨v, -, rfl⟩ : ∃ v, s.map key = some v ∧ (key, v) = e := by simpa [hfound] using he
      exact le_refl _
    · exact le_of_lt (h.greater e he)
  · rw [h.entryAt_eq, ← hfound]
    cases hhere : found ++ post with
    | cons e rest => rfl
    | nil =>
        -- the iterator is at the end of the last leaf
        obtain ⟨hnil, hpost⟩ := List.append_eq_nil_iff.mp hhere
        have hnone : s.map key = none := by simpa [hfound] using hnil
        rw [h.last hnone hpost]
        rfl

end Place

variable [Inhabited Key]

/-- The keys of a child bound what is below it. -/
theorem Fresh.le_key {c : Key × Level Key Value n} (h : Fresh c)
    (hne : ∀ leaf ∈ leaves n c.2, leaf ≠ []) (hsorted : Sorted (leaves n c.2).flatten) :
    (∀ e ∈ (leaves n c.2).flatten, e.1 ≤ c.1) ∧ ∃ e ∈ (leaves n c.2).flatten, e.1 = c.1 := by
  obtain ⟨hsome, hkey⟩ := h.2.maxKey_eq hne
  rw [h.1, ← hkey]
  exact ⟨fun e he => hsorted.le_lastKey he, exists_lastKey hsome⟩

theorem keys_sorted {children : List (Key × Level Key Value n)} (hfresh : ∀ c ∈ children, Fresh c)
    (hne : ∀ leaf ∈ leavesOf children, leaf ≠ []) (hsorted : Sorted (leavesOf children).flatten) :
    (children.map Prod.fst).Pairwise (· ≤ ·) := by
  induction children with
  | nil => exact List.Pairwise.nil
  | cons c children ih =>
      rw [leavesOf_cons, List.flatten_append, sorted_append] at hsorted
      obtain ⟨hc, hrest, hlt⟩ := hsorted
      rw [leavesOf_cons] at hne
      have hbelow : ∀ leaf ∈ leavesOf children, leaf ≠ [] := fun leaf hleaf =>
        hne leaf (List.mem_append_right _ hleaf)
      refine List.Pairwise.cons ?_
        (ih (fun d hd => hfresh d (List.mem_cons_of_mem _ hd)) hbelow hrest)
      intro key hkey
      obtain ⟨d, hd, rfl⟩ := List.mem_map.mp hkey
      have hsub : ∀ leaf ∈ leaves n d.2, leaf ∈ leavesOf children := fun leaf hleaf =>
        List.mem_flatMap.mpr ⟨d, hd, hleaf⟩
      obtain ⟨-, e, he, hekey⟩ := (hfresh c List.mem_cons_self).le_key
        (fun leaf hleaf => hne leaf (List.mem_append_left _ hleaf)) hc
      have hdsorted : Sorted (leaves n d.2).flatten := by
        obtain ⟨l, r, rfl⟩ := List.append_of_mem hd
        rw [leavesOf_append, leavesOf_cons, List.flatten_append, List.flatten_append] at hrest
        exact (sorted_append.mp (sorted_append.mp hrest).2.1).1
      obtain ⟨-, e', he', hekey'⟩ := (hfresh d (List.mem_cons_of_mem _ hd)).le_key
        (fun leaf hleaf => hbelow leaf (hsub leaf hleaf)) hdsorted
      rw [← hekey, ← hekey']
      refine le_of_lt (hlt e he e' ?_)
      obtain ⟨leaf, hleaf, he'⟩ := List.mem_flatten.mp he'
      exact List.mem_flatten.mpr ⟨leaf, hsub leaf hleaf, he'⟩

structure Lands (n : Nat) (node : Level Key Value n) (key : Key) (it : Iter)
    (before : List (List (Key × Value))) (pre post : List (Key × Value))
    (after : List (List (Key × Value))) : Prop where
  leaves : leaves n node = before ++ (pre ++ post) :: after
  iter : it = ⟨before.length, pre.length⟩
  less : ∀ e ∈ before.flatten ++ pre, e.1 < key
  notLess : ∀ e ∈ post ++ after.flatten, key ≤ e.1
  last : post = [] → after = []

/-- The child the search goes down, with what is below it and around it. -/
theorem search_below {node : Level Key Value (n + 1)} (h : Indexed (n + 1) node)
    (hsorted : Sorted (leavesOf node.children).flatten)
    (hne : (leavesOf node.children).length = 1 ∨ ∀ leaf ∈ leavesOf node.children, leaf ≠ [])
    (key : Key) :
    ∃ left c right, node.children = left ++ c :: right ∧ Fresh c
      ∧ (if ValueArray.findGEForward (node.children.map Prod.fst) key < node.children.length then
          ValueArray.findGEForward (node.children.map Prod.fst) key
        else ValueArray.findGEForward (node.children.map Prod.fst) key - 1) = left.length
      ∧ ((leaves n c.2).length = 1 ∨ ∀ leaf ∈ leaves n c.2, leaf ≠ [])
      ∧ (∀ e ∈ (leavesOf left).flatten, e.1 < key)
      ∧ ((∃ e ∈ (leaves n c.2).flatten, key ≤ e.1) ∨ leavesOf right = []) := by
  obtain ⟨hchildren, hfresh⟩ := h
  obtain hone | hall := hne
  · -- the only leaf is below the only child
    obtain ⟨c, rest, hc⟩ := List.exists_cons_of_ne_nil hchildren
    have hcfresh : Fresh c := hfresh c (by simp [hc])
    have hpos := List.length_pos_of_ne_nil hcfresh.2.leaves_ne_nil
    rw [hc, leavesOf_cons, List.length_append] at hone
    have hrest : rest = [] := by
      cases rest with
      | nil => rfl
      | cons d rest =>
          have hdfresh : Fresh d := hfresh d (by simp [hc])
          have hdpos := List.length_pos_of_ne_nil hdfresh.2.leaves_ne_nil
          rw [leavesOf_cons, List.length_append] at hone
          omega
    subst hrest
    obtain ⟨left, c', right, heq, hidx, -, -⟩ := search_child hchildren (by simp [hc]) key
    obtain ⟨rfl, hright⟩ : left = [] ∧ right = [] := by
      rw [hc] at heq
      have := congrArg List.length heq
      simp only [List.length_append, List.length_cons, List.length_nil] at this
      exact ⟨List.eq_nil_of_length_eq_zero (by omega), List.eq_nil_of_length_eq_zero (by omega)⟩
    rw [hright, hc] at heq
    obtain ⟨rfl, -⟩ := List.cons.inj heq
    exact ⟨[], c, [], hc, hcfresh, hidx, Or.inl (by omega), by simp, Or.inr rfl⟩
  · obtain ⟨left, c, right, heq, hidx, hleft, hright⟩ :=
      search_child hchildren (keys_sorted hfresh hall hsorted) key
    have hsub : ∀ d ∈ node.children, (∀ leaf ∈ leaves n d.2, leaf ≠ [])
        ∧ Sorted (leaves n d.2).flatten := by
      intro d hd
      obtain ⟨l, r, hlr⟩ := List.append_of_mem hd
      rw [hlr, leavesOf_append, leavesOf_cons] at hall hsorted
      rw [List.flatten_append, List.flatten_append] at hsorted
      refine ⟨fun leaf hleaf => hall leaf ?_, ?_⟩
      · exact List.mem_append_right _ (List.mem_append_left _ hleaf)
      · exact (sorted_append.mp (sorted_append.mp hsorted).2.1).1
    have hbound : ∀ d ∈ node.children, (∀ e ∈ (leaves n d.2).flatten, e.1 ≤ d.1)
        ∧ ∃ e ∈ (leaves n d.2).flatten, e.1 = d.1 :=
      fun d hd => Fresh.le_key (hfresh d hd) (hsub d hd).1 (hsub d hd).2
    have hc : c ∈ node.children := by simp [heq]
    refine ⟨left, c, right, heq, hfresh c hc, hidx, Or.inr (hsub c hc).1, ?_, ?_⟩
    · intro e he
      obtain ⟨leaf, hleaf, he⟩ := List.mem_flatten.mp he
      obtain ⟨d, hd, hleaf⟩ := List.mem_flatMap.mp hleaf
      have hd' : d ∈ node.children := by simp [heq, hd]
      exact lt_of_le_of_lt ((hbound d hd').1 e (List.mem_flatten.mpr ⟨leaf, hleaf, he⟩))
        (hleft d hd)
    · obtain hkey | rfl := hright
      · obtain ⟨e, he, hekey⟩ := (hbound c hc).2
        exact Or.inl ⟨e, he, hekey ▸ hkey⟩
      · exact Or.inr rfl

/-- The search lands at the first entry from the key on, if no leaf beside others is empty. -/
theorem findMaxGE_spec {node : Level Key Value n} (h : Indexed n node)
    (hsorted : Sorted (leaves n node).flatten)
    (hne : (leaves n node).length = 1 ∨ ∀ leaf ∈ leaves n node, leaf ≠ []) (key : Key) :
    ∃ it before pre post after, findMaxGE n node key = some it
      ∧ Lands n node key it before pre post after := by
  induction n with
  | zero =>
      rw [leaves_zero, List.flatten_singleton] at hsorted
      obtain ⟨pre, post, heq, hpos, hpre, hpost⟩ := findGEForward_split
        (List.pairwise_map.mpr (hsorted.imp fun h => le_of_lt h)) key
      refine ⟨⟨0, pre.length⟩, [], pre, post, [], ?_, ?_, rfl, ?_, ?_, fun _ => rfl⟩
      · rw [findMaxGE, hpos]
      · rw [leaves_zero, heq]
        rfl
      · simpa using hpre
      · simpa using hpost
  | succ n ih =>
      rw [leaves_succ] at hsorted hne
      obtain ⟨left, c, right, heq, hfresh, hidx, hnec, hleft, hfound⟩ :=
        search_below h hsorted hne key
      rw [heq, leavesOf_append, leavesOf_cons, List.flatten_append, List.flatten_append,
        sorted_append, sorted_append] at hsorted
      obtain ⟨-, ⟨hc, -, hlt⟩, -⟩ := hsorted
      obtain ⟨it, b, pre, post, a, hit, hlands⟩ := ih hfresh.2 hc hnec
      have hflat : (leaves n c.2).flatten = b.flatten ++ pre ++ (post ++ a.flatten) := by
        rw [hlands.leaves]
        simp
      refine ⟨⟨(leavesOf left ++ b).length, pre.length⟩, leavesOf left ++ b, pre, post,
        a ++ leavesOf right, ?_, ?_, rfl, ?_, ?_, ?_⟩
      · have hget : node.children[left.length]? = some c := by simp [heq]
        have htake : node.children.take left.length = left := by simp [heq]
        simp only [findMaxGE, hidx, hget, htake, hit, hlands.iter, Option.map_some,
          List.length_append]
      · rw [leaves_succ, heq, leavesOf_append, leavesOf_cons, hlands.leaves]
        simp
      · intro e he
        rw [List.flatten_append, List.append_assoc, List.mem_append] at he
        exact he.elim (hleft e) (hlands.less e)
      · intro e he
        rw [List.flatten_append, ← List.append_assoc, List.mem_append] at he
        obtain he | he := he
        · exact hlands.notLess e he
        · obtain ⟨e', he', hkey⟩ | hnil := hfound
          · exact hkey.trans (le_of_lt (hlt e' he' e he))
          · rw [hnil] at he
            cases he
      · rintro rfl
        have ha := hlands.last rfl
        obtain ⟨e', he', hkey⟩ | hnil := hfound
        · rw [hflat, ha, List.flatten_nil, List.append_nil, List.append_nil] at he'
          exact absurd (hlands.less e' he') (not_lt_of_ge hkey)
        · rw [ha, hnil]
          rfl

variable {mem : PackedMemory Key Value}

structure Inv (s : Session Key Value) : Prop where
  packed : s.tree.Packed
  sorted : Sorted s.tree.entries
  map : toMap s.tree.entries = s.map

theorem Inv.place (h : Inv s) (key : Key) :
    ∃ it before pre post after, Place s key it before pre post after := by
  obtain ⟨it, before, pre, post, after, hit, hlands⟩ :=
    findMaxGE_spec h.packed.indexed h.sorted h.packed.nonempty key
  have hat : s.tree.At it before pre post after :=
    ⟨hlands.leaves, by rw [hlands.iter], by rw [hlands.iter]⟩
  have hsorted := h.sorted
  have hmap := congrFun h.map key
  rw [hat.entries] at hsorted hmap
  have hrest := (sorted_append.mp hsorted).2.1
  -- the entries that are not less start with the key, or are all greater
  have hcases : (∃ v rest, post = (key, v) :: rest ∧ ∀ e ∈ rest ++ after.flatten, key < e.1)
      ∨ ∀ e ∈ post ++ after.flatten, key < e.1 := by
    cases post with
    | nil => exact Or.inr (by simp [hlands.last rfl])
    | cons e rest =>
        obtain ⟨k, v⟩ := e
        obtain ⟨hlt, -⟩ := List.pairwise_cons.mp hrest
        obtain heq | hgt := (hlands.notLess (k, v) (by simp)).eq_or_lt
        · cases heq
          exact Or.inl ⟨v, rest, rfl, hlt⟩
        · refine Or.inr fun e he => ?_
          obtain rfl | he := List.mem_cons.mp he
          · exact hgt
          · exact hgt.trans (hlt e he)
  obtain ⟨v, rest, rfl, hgt⟩ | hgt := hcases
  · have hsome : s.map key = some v := by
      rw [← hmap]
      have hsorted' :
          Sorted (around (before.flatten ++ pre) key (some v) (rest ++ after.flatten)) := hsorted
      exact toMap_around_self hlands.less hgt hsorted'
    refine ⟨it, before, pre, rest, after, hit, ?_, hlands.less, hgt, ?_⟩
    · rw [hsome]
      exact hat
    · rw [hsome]
      exact fun hnone => absurd hnone (by simp)
  · have hnone : s.map key = none := by
      rw [← hmap]
      have hsorted' : Sorted (around (before.flatten ++ pre) key none (post ++ after.flatten)) :=
        hsorted
      exact toMap_around_self hlands.less hgt hsorted'
    refine ⟨it, before, pre, post, after, hit, ?_, hlands.less, hgt, fun _ => hlands.last⟩
    rw [hnone]
    exact hat

def perform (mem : PackedMemory Key Value) (t : Tree Key Value) (it : Iter) (key : Key) :
    Action Value → Option (Tree Key Value)
  | .none => some t
  | .insert value => t.insertEntry mem it (key, value)
  | .assign value => t.updateEntry mem it value
  | .remove => t.removeEntry mem it

def Action.result (previous : Option Value) : Action Value → Option Value
  | .none => previous
  | .insert value => some value
  | .assign value => some value
  | .remove => Option.none

def Op.reply (previous : Option Value) (it : Iter) : Op Key Value → Reply Value
  | .insert _ _ | .remove _ | .contains _ => .flag previous.isSome
  | .find _ => .iter it
  | .assignKey _ _ | .removeKey _ | .withValue _ _ => .done
  | .replaceAndReturn _ _ | .removeAndReturn _ => .value previous

omit [Inhabited Key] in
theorem effect_eq (map : Key → Option Value) (op : Op Key Value) :
    effect map op
      = Function.update map op.key ((op.action (map op.key)).result (map op.key)) := by
  have hself : ∀ key value, map key = value → map = Function.update map key value :=
    fun key value hvalue => by rw [← hvalue, Function.update_eq_self]
  cases op with
  | withValue key fn =>
      cases hmap : map key with
      | none => cases hfn : fn none <;> simp_all [effect, Op.action, Op.key, Action.result]
      | some v => cases hfn : fn (some v) <;> simp_all [effect, Op.action, Op.key, Action.result]
  | _ key => cases hmap : map key <;> simp_all [effect, Op.action, Op.key, Action.result]

theorem Place.call_eq {op : Op Key Value} {it : Iter} {before after : List (List (Key × Value))}
    {pre post : List (Key × Value)} (h : Place s op.key it before pre post after) :
    call mem s.tree op = (perform mem s.tree it op.key (op.action (s.map op.key))).map
      fun t => (t, op.reply (s.map op.key) it) := by
  have hfound := h.found
  have hisFound := h.isFound_eq
  have hvalue := h.value_eq
  have hpair : ∀ (o : Option (Tree Key Value)) (reply : Reply Value),
      (o.bind fun t => some (t, reply)) = o.map fun t => (t, reply) :=
    fun o reply => by cases o <;> rfl
  generalize s.map op.key = previous at hisFound hvalue ⊢
  cases previous with
  | none =>
      cases op with
      | withValue key fn =>
          simp only [Op.key] at hfound hisFound
          cases hfn : fn none <;>
            simp [call, hfound, hisFound, hfn, perform, Op.action, Op.reply, Op.key, hpair]
      | _ =>
          simp only [Op.key] at hfound hisFound
          simp [call, hfound, hisFound, perform, Op.action, Op.reply, Op.key, hpair]
  | some v =>
      have hv := hvalue rfl
      cases op with
      | withValue key fn =>
          simp only [Op.key] at hfound hisFound
          cases hfn : fn (some v) <;>
            simp [call, hfound, hisFound, hv, hfn, perform, Op.action, Op.reply, hpair]
      | _ =>
          simp only [Op.key] at hfound hisFound
          simp [call, hfound, hisFound, hv, perform, Op.action, Op.reply, hpair]

def Action.Ready (mem : PackedMemory Key Value) (s : Session Key Value) (key : Key) (it : Iter) :
    Action Value → Prop
  | .none => True
  | .insert value => s.map key = Option.none ∧ s.tree.Insertable mem it (key, value)
  | .assign _ => (s.map key).isSome = true
  | .remove => (s.map key).isSome = true ∧ s.tree.Removable mem it

theorem StepOk.ready {op : Op Key Value} (h : StepOk mem s op) {it : Iter}
    (hit : s.tree.findMaxGE op.key = some it) :
    (op.action (s.map op.key)).Ready mem s op.key it := by
  have hok := h it hit
  generalize hprevious : s.map op.key = previous at hok ⊢
  cases op with
  | withValue key fn =>
      cases previous with
      | none => cases hfn : fn none <;> simp_all [Op.action, Action.Ready]
      | some v => cases hfn : fn (some v) <;> simp_all [Op.action, Action.Ready]
  | _ => cases previous <;> simp_all [Op.action, Action.Ready]

theorem Inv.perform (h : Inv s) {it : Iter} {before after : List (List (Key × Value))}
    {pre post : List (Key × Value)} (hplace : Place s key it before pre post after)
    {action : Action Value} (hready : action.Ready mem s key it) {t : Tree Key Value}
    (hperform : perform mem s.tree it key action = some t) :
    Inv ⟨t, Function.update s.map key (action.result (s.map key))⟩ := by
  have hstands := hplace.stands
  have hentries : t.Packed ∧ t.entries
      = around (before.flatten ++ pre) key (action.result (s.map key)) (post ++ after.flatten) := by
    cases action with
    | none =>
        cases hperform
        exact ⟨h.packed, hplace.entries_eq⟩
    | insert value =>
        rw [hready.1] at hstands
        exact h.packed.insertEntry hstands hready.2 hperform
    | assign value =>
        obtain ⟨v, hv⟩ := Option.isSome_iff_exists.mp hready
        rw [hv] at hstands
        exact h.packed.updateEntry hstands hperform
    | remove =>
        obtain ⟨v, hv⟩ := Option.isSome_iff_exists.mp hready.1
        rw [hv] at hstands
        exact h.packed.removeEntry hstands hready.2 hperform
  have hsorted := h.sorted
  rw [hplace.entries_eq] at hsorted
  refine ⟨hentries.1, ?_, ?_⟩
  · rw [hentries.2, sorted_around hplace.less hplace.greater]
    exact (sorted_around hplace.less hplace.greater).mp hsorted
  · rw [hentries.2, toMap_around hplace.less hplace.greater hsorted, ← hplace.entries_eq, h.map]

/-- A call within the condition keeps the tree and the map in step. -/
theorem Inv.step (h : Inv s) {op : Op Key Value} (hok : StepOk mem s op)
    (hstep : step mem s op = some s') : Inv s' := by
  obtain ⟨it, before, pre, post, after, hplace⟩ := h.place op.key
  rw [SetMap.step, hplace.call_eq, Option.map_map, Option.map_eq_some_iff] at hstep
  obtain ⟨t, hperform, rfl⟩ := hstep
  simp only [Function.comp_apply, effect_eq]
  exact h.perform hplace (hok.ready hplace.found) hperform

theorem Inv.answered (h : Inv s) (op : Op Key Value) : Answered mem s op := by
  intro t reply hcall
  obtain ⟨it, before, pre, post, after, hplace⟩ := h.place op.key
  rw [hplace.call_eq, Option.map_eq_some_iff] at hcall
  obtain ⟨t', -, hreply⟩ := hcall
  obtain ⟨-, rfl⟩ := Prod.mk.inj hreply
  cases op with
  | find key => exact ⟨it, rfl, hplace.lands⟩
  | _ => rfl

theorem Inv.refines (h : Inv s) : s.Refines := by
  refine ⟨h.sorted, h.map, fun key => ?_⟩
  obtain ⟨it, before, pre, post, after, hplace⟩ := h.place key
  exact ⟨it, hplace.found, hplace.lands⟩

def Session.open (t : Tree Key Value) : Session Key Value := ⟨t, toMap t.entries⟩

/-- Entries in the order of their keys, keys in the branches that call for them, and no empty leaf
beside others. -/
def Tree.Valid (t : Tree Key Value) : Prop := t.Packed ∧ Sorted t.entries

/-- From every valid container on, of any height, a run whose operations leave no empty leaf beside
others refines the same run on a finite map. -/
theorem run_refines (mem : PackedMemory Key Value) {t : Tree Key Value} (ht : t.Valid)
    {ops : List (Op Key Value)} (hok : EveryStep (step mem) (StepOk mem) (Session.open t) ops) :
    EveryState (step mem) Session.Refines (Session.open t) ops
      ∧ EveryStep (step mem) (Answered mem) (Session.open t) ops := by
  have hinv : Inv (Session.open t) := ⟨ht.1, ht.2, rfl⟩
  constructor
  · exact EveryState.of_invariant (fun s op s' h hok hstep => h.step hok hstep)
      (fun s h => h.refines) hinv hok
  · exact EveryStep.of_invariant (fun s op s' h hok hstep => h.step hok hstep)
      (fun s op h _ => h.answered op) hinv hok

instance Tree.Removable.decidable (t : Tree Key Value) (it : Iter) :
    Decidable (t.Removable mem it) :=
  inferInstanceAs (Decidable (_ ∨ (∀ leaf, t.leaves[it.leaf]? = some leaf → 1 < leaf.length) ∨ _))

instance Tree.Insertable.decidable (t : Tree Key Value) (it : Iter) (entry : Key × Value) :
    Decidable (t.Insertable mem it entry) :=
  inferInstanceAs (Decidable (_ → _ → _ → _))

instance StepOk.decidable (s : Session Key Value) (op : Op Key Value) :
    Decidable (StepOk mem s op) :=
  have (it : Iter) : Decidable (match op.action (s.map op.key) with
      | .insert value => s.tree.Insertable mem it (op.key, value)
      | .remove => s.tree.Removable mem it
      | _ => True) :=
    match op.action (s.map op.key) with
    | .insert value => inferInstanceAs (Decidable (s.tree.Insertable mem it (op.key, value)))
    | .remove => inferInstanceAs (Decidable (s.tree.Removable mem it))
    | .none => inferInstanceAs (Decidable True)
    | .assign _ => inferInstanceAs (Decidable True)
  decidableForallSome _

def smallBlocks : PackedMemory Nat Unit where
  leaf _ entries := entries.length ≤ 2
  branch _ keys := keys.length ≤ 3
  branch_two _ keys h := decide_eq_true (by omega)

def insertions : List (Op Nat Unit) := [5, 4, 3, 2, 1].map fun key => .insert key ()

theorem valid_empty : (Tree.empty : Tree Nat Unit).Valid :=
  ⟨⟨trivial, Or.inl rfl⟩, List.Pairwise.nil⟩

theorem run_refines_insertions :
    EveryState (step smallBlocks) Session.Refines (Session.open Tree.empty)
        (insertions ++ [.remove 2, .remove 1, .contains 3, .insert 1 (), .find 2])
      ∧ EveryStep (step smallBlocks) (Answered smallBlocks) (Session.open Tree.empty)
        (insertions ++ [.remove 2, .remove 1, .contains 3, .insert 1 (), .find 2]) :=
  run_refines smallBlocks valid_empty (by decide +kernel)

def lossyRun : List (Op Nat Unit) := insertions ++ [.remove 3]

/-- The removal of `3` leaves its leaf empty, at the end of a branch that cannot be merged with the
next one. The key of the empty leaf hides `1` and `2` from every search. -/
theorem run_not_refines_lossyRun : (Tree.empty : Tree Nat Unit).Valid
    ∧ ¬ (EveryState (step smallBlocks) Session.Refines (Session.open Tree.empty)
        (lossyRun ++ [.contains 1])
      ∧ EveryStep (step smallBlocks) (Answered smallBlocks) (Session.open Tree.empty)
        (lossyRun ++ [.contains 1])) := by
  refine ⟨valid_empty, fun h => ?_⟩
  have hrun : (lossyRun.foldlM (step smallBlocks) (Session.open Tree.empty)).any
      (fun s => (s.map 1).isSome && (call smallBlocks s.tree (.contains 1)).any
        fun result => result.2 = .flag false) = true := by
    decide +kernel
  obtain ⟨s, hs, hlost⟩ := (Option.any_eq_true _ _).mp hrun
  rw [Bool.and_eq_true] at hlost
  obtain ⟨⟨t, reply⟩, hcall, hreply⟩ := (Option.any_eq_true _ _).mp hlost.2
  have hright : reply = .flag (s.map 1).isSome := h.2.last hs t reply hcall
  rw [hlost.1] at hright
  rw [hright] at hreply
  cases of_decide_eq_true hreply

end Memoria.SetMap

import Memoria.SetMap

namespace Memoria.SetMap

open Lib Lib.Level

/-! The updates of the tree, as updates of its list of leaves. -/

variable {Key Value : Type} {n : Nat}

def entryOf [Inhabited Key] (c : Level Key Value n) : Key × Level Key Value n := (maxKey n c, c)

namespace Parts

variable {p q : Parts Key Value n} {left right : List (Key × Level Key Value n)}
  {c : Key × Level Key Value n} {mem : PackedMemory Key Value}

def Holds (p : Parts Key Value n) (left : List (Key × Level Key Value n))
    (c : Key × Level Key Value n) (right : List (Key × Level Key Value n)) : Prop :=
  ∃ a b, p.children = a ++ c :: b ∧ p.idx = a.length
    ∧ left = p.before.flatMap Level.children ++ a ∧ right = b ++ p.after.flatMap Level.children
    ∧ ∀ node ∈ p.before ++ p.after, node.children ≠ []

theorem holds_start (isRoot : Bool) (left right : List (Key × Level Key Value n))
    (c : Key × Level Key Value n) :
    Holds ⟨[], isRoot, left ++ c :: right, left.length, []⟩ left c right :=
  ⟨left, right, rfl, rfl, rfl, (List.append_nil _).symm, by simp⟩

theorem Holds.splitInHalf (h : p.Holds left c right) (hlen : 2 ≤ p.children.length) :
    p.splitInHalf.Holds left c right := by
  obtain ⟨a, b, hchildren, hidx, hleft, hright, hne⟩ := h
  have hsize : p.children.length = a.length + 1 + b.length := by
    rw [hchildren, List.length_append, List.length_cons]
    omega
  unfold Parts.splitInHalf
  by_cases hlt : p.idx < p.children.length / 2
  · -- the right half is split off
    obtain ⟨k, hk⟩ : ∃ k, p.children.length / 2 = a.length + 1 + k :=
      ⟨p.children.length / 2 - a.length - 1, by omega⟩
    have hsplit : p.children = (a ++ [c]) ++ b := by simp [hchildren]
    have htake : p.children.take (p.children.length / 2) = a ++ c :: b.take k := by
      rw [hk, hsplit, show a.length + 1 + k = (a ++ [c]).length + k by simp,
        List.take_length_add_append]
      simp
    have hdrop : p.children.drop (p.children.length / 2) = b.drop k := by
      rw [hk, hsplit, show a.length + 1 + k = (a ++ [c]).length + k by simp,
        List.drop_length_add_append]
    simp only [if_pos hlt]
    refine ⟨a, b.take k, htake, hidx, hleft, ?_, ?_⟩
    · rw [hright, List.flatMap_cons, children_branch, hdrop, ← List.append_assoc,
        List.take_append_drop]
    · intro node hnode
      rw [List.mem_append, List.mem_cons] at hnode
      obtain hnode | rfl | hnode := hnode
      · exact hne node (List.mem_append_left _ hnode)
      · rw [children_branch, ← List.length_pos_iff_ne_nil, List.length_drop]
        omega
      · exact hne node (List.mem_append_right _ hnode)
  · -- the left half is split off
    have hle : p.children.length / 2 ≤ a.length := by omega
    have htake : p.children.take (p.children.length / 2) = a.take (p.children.length / 2) := by
      rw [hchildren] at hle ⊢
      exact List.take_append_of_le_length hle
    have hdrop : p.children.drop (p.children.length / 2)
        = a.drop (p.children.length / 2) ++ c :: b := by
      rw [hchildren] at hle ⊢
      exact List.drop_append_of_le_length hle
    simp only [if_neg hlt]
    refine ⟨a.drop (p.children.length / 2), b, hdrop, ?_, ?_, hright, ?_⟩
    · simp [hidx]
    · rw [hleft, List.flatMap_append, List.flatMap_singleton, children_branch, htake,
        List.append_assoc, List.take_append_drop]
    · intro node hnode
      rw [List.mem_append, List.mem_append, List.mem_singleton] at hnode
      obtain (hnode | rfl) | hnode := hnode
      · exact hne node (List.mem_append_left _ hnode)
      · rw [children_branch, ← List.length_pos_iff_ne_nil, List.length_take]
        omega
      · exact hne node (List.mem_append_right _ hnode)

theorem Holds.nodes (h : p.Holds left c right) :
    p.nodes.flatMap Level.children = left ++ c :: right ∧ ∀ node ∈ p.nodes, node.children ≠ [] := by
  obtain ⟨a, b, hchildren, -, hleft, hright, hne⟩ := h
  rw [Parts.nodes]
  constructor
  · rw [List.flatMap_append, List.flatMap_cons, children_branch, hchildren, hleft, hright]
    simp
  · intro node hnode
    rw [List.mem_append, List.mem_cons] at hnode
    obtain hnode | rfl | hnode := hnode
    · exact hne node (List.mem_append_left _ hnode)
    · rw [children_branch, hchildren]
      simp
    · exact hne node (List.mem_append_right _ hnode)

/-- What `put` does to the child in hand it does on the first attempt or on the second. -/
theorem Holds.attempt {put : Parts Key Value n → Parts Key Value n}
    {left' : List (Key × Level Key Value n)} {c' : Key × Level Key Value n}
    (hput : ∀ q : Parts Key Value n, q.Holds left c right → (put q).Holds left' c' right)
    (hlen : (put p).children.length ≤ p.children.length + 1) (h : p.Holds left c right)
    (hq : Parts.attempt mem put p = some q) : q.Holds left' c' right := by
  rw [Parts.attempt] at hq
  dsimp only at hq
  split_ifs at hq with hfits
  · rw [← Option.some.inj hq]
    exact hput p h
  · rw [← Option.some.inj hq]
    refine hput _ (h.splitInHalf ?_)
    by_contra hsmall
    refine hfits (mem.branch_two _ _ ?_)
    rw [List.length_map]
    omega

variable [Inhabited Key]

theorem Holds.update (h : p.Holds left c right) (d : Level Key Value n) :
    (p.update d).Holds left (entryOf d) right := by
  obtain ⟨a, b, hchildren, hidx, hleft, hright, hne⟩ := h
  refine ⟨a, b, ?_, hidx, hleft, hright, hne⟩
  rw [Parts.update, hchildren, hidx]
  simp [entryOf]

theorem Holds.insert (h : p.Holds left c right) (d : Level Key Value n) :
    (p.insert d).Holds (left ++ [c]) (entryOf d) right := by
  obtain ⟨a, b, hchildren, hidx, hleft, hright, hne⟩ := h
  refine ⟨a ++ [c], b, ?_, by simp [Parts.insert, hidx], ?_, hright, hne⟩
  · rw [Parts.insert, hchildren, hidx]
    simp only [insertIdx_append_cons, entryOf]
    simp
  · rw [hleft, List.append_assoc]
    rfl

theorem Holds.insertAll {nodes : List (Level Key Value n)} (h : p.Holds left c right)
    (hq : p.insertAll mem nodes = some q) :
    ∃ left' c', q.Holds left' c' right ∧ left' ++ [c'] = left ++ c :: nodes.map entryOf := by
  induction nodes generalizing p left c with
  | nil =>
      rw [Parts.insertAll, List.foldlM_nil] at hq
      cases hq
      exact ⟨left, c, h, rfl⟩
  | cons d nodes ih =>
      rw [Parts.insertAll, List.foldlM_cons, Option.bind_eq_bind, Option.bind_eq_some_iff] at hq
      obtain ⟨p', hp', hq⟩ := hq
      have h' : p'.Holds (left ++ [c]) (entryOf d) right := by
        refine Holds.attempt (fun q hq => hq.insert d) ?_ h hp'
        rw [Parts.insert]
        exact List.length_insertIdx_le_succ
      obtain ⟨left', c', hholds, heq⟩ := ih h' hq
      exact ⟨left', c', hholds, by rw [heq, List.append_assoc]; rfl⟩

end Parts

def leavesAll (nodes : List (Level Key Value n)) : List (List (Key × Value)) :=
  nodes.flatMap (leaves n)

theorem leavesAll_eq (nodes : List (Level Key Value (n + 1))) :
    leavesAll nodes = leavesOf (nodes.flatMap Level.children) := by
  induction nodes with
  | nil => rfl
  | cons node nodes ih =>
      rw [leavesAll, List.flatMap_cons, List.flatMap_cons, leavesOf_append, ← ih]
      rfl

variable [Inhabited Key] {mem : PackedMemory Key Value}

def IndexedAll (nodes : List (Level Key Value n)) : Prop := ∀ node ∈ nodes, Indexed n node

theorem leavesOf_map_entryOf (nodes : List (Level Key Value n)) :
    leavesOf (nodes.map entryOf) = leavesAll nodes := by
  rw [leavesOf, leavesAll, List.flatMap_map]
  rfl

def Fresh (c : Key × Level Key Value n) : Prop := c.1 = maxKey n c.2 ∧ Indexed n c.2

theorem fresh_entryOf {c : Level Key Value n} (h : Indexed n c) : Fresh (entryOf c) := ⟨rfl, h⟩

theorem indexedAll_of_fresh {nodes : List (Level Key Value (n + 1))}
    (hfresh : ∀ c ∈ nodes.flatMap Level.children, Fresh c)
    (hne : ∀ node ∈ nodes, node.children ≠ []) : IndexedAll nodes := by
  intro node hnode
  exact ⟨hne node hnode, fun c hc => hfresh c (List.mem_flatMap.mpr ⟨node, hnode, hc⟩)⟩

/-- The entry of a child is replaced by those of the nodes the child has become. -/
theorem replaceChild_spec {isRoot : Bool} {left right : List (Key × Level Key Value n)}
    {c : Key × Level Key Value n} {nodes : List (Level Key Value n)}
    {result : List (Level Key Value (n + 1))}
    (h : replaceChild mem isRoot (left ++ c :: right) left.length nodes = some result)
    (hleft : ∀ d ∈ left, Fresh d) (hright : ∀ d ∈ right, Fresh d) (hnodes : IndexedAll nodes) :
    IndexedAll result ∧ leavesAll result = leavesOf left ++ leavesAll nodes ++ leavesOf right := by
  cases nodes with
  | nil => cases h
  | cons d nodes =>
      simp only [replaceChild, Option.bind_eq_bind, Option.bind_eq_some_iff, Option.pure_def,
        Option.some.injEq] at h
      obtain ⟨p, hp, q, hq, rfl⟩ := h
      have hstart := Parts.holds_start isRoot left right c
      have hholds : p.Holds left (entryOf d) right := by
        refine hstart.attempt (fun q hq => hq.update d) ?_ hp
        simp [Parts.update]
      obtain ⟨left', c', hq, heq⟩ := hholds.insertAll hq
      obtain ⟨hflat, hne⟩ := hq.nodes
      have hchildren : q.nodes.flatMap Level.children
          = left ++ (d :: nodes).map entryOf ++ right := by
        calc q.nodes.flatMap Level.children = (left' ++ [c']) ++ right := by
              rw [hflat, List.append_assoc]
              rfl
          _ = left ++ (d :: nodes).map entryOf ++ right := by
              rw [heq]
              rfl
      constructor
      · refine indexedAll_of_fresh ?_ hne
        intro e he
        rw [hchildren, List.mem_append, List.mem_append, List.mem_map] at he
        obtain (he | ⟨node, hnode, rfl⟩) | he := he
        · exact hleft e he
        · exact fresh_entryOf (hnodes node hnode)
        · exact hright e he
      · rw [leavesAll_eq, hchildren, leavesOf_append, leavesOf_append, leavesOf_map_entryOf]

/-- A new key that fits is the only change. -/
theorem replaceChild_of_fits {isRoot : Bool} {children : List (Key × Level Key Value n)}
    {idx : Nat} {c : Level Key Value n}
    (h : mem.branch isRoot ((children.set idx (entryOf c)).map Prod.fst) = true) :
    replaceChild mem isRoot children idx [c] = some [branch (children.set idx (entryOf c))] := by
  have hattempt : Parts.attempt mem (Parts.update c) ⟨[], isRoot, children, idx, []⟩
      = some ⟨[], isRoot, children.set idx (entryOf c), idx, []⟩ := if_pos h
  rw [replaceChild, hattempt]
  rfl

/-- Where the leaf of a given number is below an indexed node. -/
theorem locate_indexed {node : Level Key Value (n + 1)} (h : Indexed (n + 1) node)
    {before after : List (List (Key × Value))} {leaf : List (Key × Value)}
    (hleaves : leaves (n + 1) node = before ++ leaf :: after) :
    ∃ left c right b a, node.children = left ++ c :: right
      ∧ locate node.children before.length = some (left.length, b.length)
      ∧ node.children[left.length]? = some c
      ∧ leaves n c.2 = b ++ leaf :: a ∧ before = leavesOf left ++ b ∧ after = a ++ leavesOf right
      ∧ (∀ d ∈ left, Fresh d) ∧ Fresh c ∧ ∀ d ∈ right, Fresh d := by
  rw [leaves_succ] at hleaves
  obtain ⟨left, c, right, b, a, hchildren, hlocate, hc, hbefore, hafter⟩ := locate_spec hleaves
  have hfresh : ∀ d ∈ left ++ c :: right, Fresh d := fun d hd => h.2 d (hchildren ▸ hd)
  refine ⟨left, c, right, b, a, hchildren, hlocate, ?_, hc, hbefore, hafter, ?_, ?_, ?_⟩
  · simp [hchildren]
  · exact fun d hd => hfresh d (List.mem_append_left _ hd)
  · exact hfresh c (List.mem_append_right _ List.mem_cons_self)
  · exact fun d hd => hfresh d (List.mem_append_right _ (List.mem_cons_of_mem _ hd))

/-- An edit of a leaf replaces it in the list of leaves. -/
theorem editLeaf_spec {edit : Bool → List (Key × Value) → Option (List (List (Key × Value)))}
    {isRoot : Bool} {node : Level Key Value n} (h : Indexed n node)
    {before after : List (List (Key × Value))} {leaf : List (Key × Value)}
    (hleaves : leaves n node = before ++ leaf :: after) {nodes : List (Level Key Value n)}
    (hedit : editLeaf mem edit n isRoot node before.length = some nodes) :
    ∃ isRoot' new, edit isRoot' leaf = some new ∧ (isRoot' = true → isRoot = true ∧ n = 0)
      ∧ IndexedAll nodes ∧ leavesAll nodes = before ++ new ++ after := by
  induction n generalizing isRoot before after with
  | zero =>
      rw [leaves_zero] at hleaves
      cases before with
      | nil =>
          obtain ⟨hleaf, hnil⟩ := List.cons.inj hleaves
          rw [editLeaf, hleaf, Option.map_eq_some_iff] at hedit
          obtain ⟨new, hnew, rfl⟩ := hedit
          refine ⟨isRoot, new, hnew, fun hroot => ⟨hroot, rfl⟩, fun _ _ => trivial, ?_⟩
          rw [leavesAll, List.flatMap_map, ← hnil]
          simp [leaves_zero]
      | cons leaf' before => simp at hleaves
  | succ n ih =>
      obtain ⟨left, c, right, b, a, hchildren, hlocate, hget, hc, rfl, rfl, hl, hfresh, hr⟩ :=
        locate_indexed h hleaves
      simp only [editLeaf, hlocate, hget, Option.bind_eq_bind, Option.bind_some,
        Option.bind_eq_some_iff] at hedit
      obtain ⟨nodes', hnodes', hreplace⟩ := hedit
      obtain ⟨isRoot', new, hnew, hroot, hindexed, hall⟩ := ih hfresh.2 hc hnodes'
      rw [hchildren] at hreplace
      obtain ⟨hresult, hleaves'⟩ := replaceChild_spec hreplace hl hr hindexed
      refine ⟨isRoot', new, hnew, fun h => absurd (hroot h).1 Bool.false_ne_true, hresult, ?_⟩
      rw [hleaves', hall]
      simp

/-- New roots keep the leaves. -/
theorem growRoot_spec {fuel : Nat} {nodes : List (Level Key Value n)} {t : Tree Key Value}
    (h : growRoot mem fuel n nodes = some t) (hnodes : IndexedAll nodes) :
    Indexed t.height t.root ∧ t.leaves = leavesAll nodes := by
  have hone : ∀ (n : Nat) (root : Level Key Value n), IndexedAll [root] →
      Indexed n root ∧ (⟨n, root⟩ : Tree Key Value).leaves = leavesAll [root] := by
    intro n root hroot
    refine ⟨hroot root List.mem_cons_self, ?_⟩
    rw [leavesAll, List.flatMap_singleton]
    rfl
  induction fuel generalizing n with
  | zero =>
      match nodes, h with
      | [root], h =>
          cases h
          exact hone _ _ hnodes
  | succ fuel ih =>
      match nodes, h with
      | [root], h =>
          cases h
          exact hone _ _ hnodes
      | c :: d :: nodes, h =>
          simp only [growRoot, Option.bind_eq_bind, Option.bind_eq_some_iff] at h
          obtain ⟨p, hp, hgrow⟩ := h
          have hstart : Parts.Holds ⟨[], true, [entryOf c], 0, []⟩ [] (entryOf c) [] :=
            Parts.holds_start true [] [] (entryOf c)
          obtain ⟨left, e, hholds, heq⟩ := hstart.insertAll hp
          obtain ⟨hflat, hne⟩ := hholds.nodes
          have hchildren : p.nodes.flatMap Level.children = (c :: d :: nodes).map entryOf := by
            rw [hflat, heq]
            rfl
          have hindexed : IndexedAll p.nodes := by
            refine indexedAll_of_fresh ?_ hne
            intro e he
            rw [hchildren, List.mem_map] at he
            obtain ⟨node, hnode, rfl⟩ := he
            exact fresh_entryOf (hnodes node hnode)
          obtain ⟨hroot, hleaves⟩ := ih hgrow hindexed
          refine ⟨hroot, ?_⟩
          rw [hleaves, leavesAll_eq, hchildren, leavesOf_map_entryOf]

/-- A change of one leaf, and the splits it causes, leave the other leaves as they are. -/
theorem Tree.edit_spec {t t' : Tree Key Value} (h : Indexed t.height t.root)
    {edit : Bool → List (Key × Value) → Option (List (List (Key × Value)))}
    {before after : List (List (Key × Value))} {leaf : List (Key × Value)}
    (hleaves : t.leaves = before ++ leaf :: after)
    (hedit : t.edit mem before.length edit = some t') :
    ∃ isRoot new, edit isRoot leaf = some new ∧ (isRoot = true → t.height = 0)
      ∧ Indexed t'.height t'.root ∧ t'.leaves = before ++ new ++ after := by
  simp only [Tree.edit, Option.bind_eq_bind, Option.bind_eq_some_iff] at hedit
  obtain ⟨nodes, hnodes, hgrow⟩ := hedit
  obtain ⟨isRoot, new, hnew, hzero, hindexed, hall⟩ := editLeaf_spec h hleaves hnodes
  obtain ⟨hroot, hleaves'⟩ := growRoot_spec hgrow hindexed
  exact ⟨isRoot, new, hnew, fun h => (hzero h).2, hroot, hleaves'.trans hall⟩

/-- The leaves of two neighbours after a merge; the flag says whether the leaves at the seam have
become one. -/
def Joined (first second : List (List (Key × Value))) (merged : Bool)
    (result : List (List (Key × Value))) : Prop :=
  if merged then ∃ init x y rest, first = init ++ [x] ∧ second = y :: rest
    ∧ result = init ++ (x ++ y) :: rest
  else result = first ++ second

omit [Inhabited Key] in
theorem Joined.extend {first second result : List (List (Key × Value))} {merged : Bool}
    (h : Joined first second merged result) (left right : List (List (Key × Value))) :
    Joined (left ++ first) (second ++ right) merged (left ++ result ++ right) := by
  cases merged with
  | false =>
      have heq : result = first ++ second := h
      change left ++ result ++ right = left ++ first ++ (second ++ right)
      rw [heq]
      simp
  | true =>
      obtain ⟨init, x, y, rest, hfirst, hsecond, hresult⟩ := h
      refine ⟨left ++ init, x, y, rest ++ right, ?_, ?_, ?_⟩
      · rw [hfirst, List.append_assoc]
      · rw [hsecond, List.cons_append]
      · rw [hresult]
        simp

/-- A merge of nodes keeps the leaves, but for the two at the seam, which may become one. -/
theorem mergeNodes_spec {a b m : Level Key Value n} {merged : Bool} (ha : Indexed n a)
    (hb : Indexed n b) (h : mergeNodes mem n a b = some (m, merged)) :
    Indexed n m ∧ Joined (leaves n a) (leaves n b) merged (leaves n m) := by
  induction n generalizing merged with
  | zero =>
      rw [mergeNodes] at h
      split_ifs at h
      cases h
      exact ⟨trivial, [], a.entries, b.entries, [], rfl, rfl, rfl⟩
  | succ n ih =>
      obtain ⟨hane, hafresh⟩ := ha
      obtain ⟨hbne, hbfresh⟩ := hb
      obtain ⟨init, x, hx⟩ : ∃ init x, a.children = init ++ [x] :=
        ⟨_, _, (List.dropLast_append_getLast hane).symm⟩
      obtain ⟨y, rest, hy⟩ := List.exists_cons_of_ne_nil hbne
      have hfresh : ∀ d ∈ init ++ x :: y :: rest, Fresh d := by
        intro d hd
        have hd' : d ∈ a.children ∨ d ∈ b.children := by
          rw [hx, hy]
          simpa [or_assoc] using hd
        exact hd'.elim (hafresh d) (hbfresh d)
      -- the two nodes as they are, one behind the other
      have hplain : Indexed (n + 1) (branch (init ++ x :: y :: rest))
          ∧ leaves (n + 1) (branch (init ++ x :: y :: rest))
            = leaves (n + 1) a ++ leaves (n + 1) b := by
        refine ⟨⟨by simp, hfresh⟩, ?_⟩
        rw [leaves_succ, leaves_succ, leaves_succ, hx, hy, children_branch]
        simp
      have happend : a.children ++ b.children = init ++ x :: y :: rest := by
        rw [hx, hy]
        simp
      have hlast : a.children.getLast? = some x := by simp [hx]
      have hhead : b.children.head? = some y := by simp [hy]
      simp only [mergeNodes, hlast, hhead, happend] at h
      split_ifs at h
      split at h
      · next m' merged' hinner =>
          cases h
          have hxfresh := hfresh x (by simp)
          have hyfresh := hfresh y (by simp)
          obtain ⟨hm', hjoined⟩ := ih hxfresh.2 hyfresh.2 hinner
          have hchildren : a.children.dropLast ++ (maxKey n m', m') :: b.children.tail
              = init ++ entryOf m' :: rest := by
            rw [hx, hy]
            simp [entryOf]
          rw [hchildren]
          constructor
          · refine ⟨by simp, ?_⟩
            intro d hd
            rw [children_branch, List.mem_append, List.mem_cons] at hd
            obtain hd | rfl | hd := hd
            · exact hfresh d (List.mem_append_left _ hd)
            · exact fresh_entryOf hm'
            · exact hfresh d (by simp [hd])
          · rw [leaves_succ, leaves_succ, leaves_succ, hx, hy, children_branch]
            simpa [entryOf] using hjoined.extend (leavesOf init) (leavesOf rest)
      · cases h
        exact ⟨hplain.1, hplain.2⟩

/-- The leaf and the next one become one leaf, or all leaves stay. -/
theorem mergeLeaves_spec {isRoot : Bool} {node : Level Key Value n} (h : Indexed n node)
    {before after : List (List (Key × Value))} {leaf next : List (Key × Value)}
    (hleaves : leaves n node = before ++ leaf :: next :: after) {nodes : List (Level Key Value n)}
    {merged : Bool}
    (hmerge : mergeLeaves mem n isRoot node before.length = some (some (nodes, merged))) :
    IndexedAll nodes ∧ Joined (before ++ [leaf]) (next :: after) merged (leavesAll nodes) := by
  induction n generalizing isRoot before after merged with
  | zero => cases hmerge
  | succ n ih =>
      obtain ⟨left, c, right, b, a, hchildren, hlocate, hget, hc, rfl, hafter, hl, hfresh, hr⟩ :=
        locate_indexed h hleaves
      simp only [mergeLeaves, hlocate, hget, Option.bind_eq_bind, Option.bind_some] at hmerge
      have hcount : leafCount c.2 = b.length + (a.length + 1) := by
        rw [leafCount, hc, List.length_append, List.length_cons]
      cases a with
      | cons next' a =>
          -- the next leaf is below the same child
          obtain ⟨rfl, rfl⟩ := List.cons.inj hafter
          rw [if_pos (by rw [hcount, List.length_cons]; omega), Option.bind_eq_some_iff] at hmerge
          obtain ⟨inner, hinner, hmerge⟩ := hmerge
          cases inner with
          | none => cases hmerge
          | some inner =>
              obtain ⟨nodes', merged'⟩ := inner
              simp only [Option.bind_eq_some_iff, Option.pure_def, Option.some.injEq,
                Prod.mk.injEq] at hmerge
              obtain ⟨result, hresult, rfl, rfl⟩ := hmerge
              obtain ⟨hindexed, hjoined⟩ := ih hfresh.2 hc hinner
              rw [hchildren] at hresult
              obtain ⟨hall, hleaves'⟩ := replaceChild_spec hresult hl hr hindexed
              refine ⟨hall, ?_⟩
              rw [hleaves']
              simpa using hjoined.extend (leavesOf left) (leavesOf right)
      | nil =>
          -- the next leaf is the first one below the next child
          rw [List.nil_append] at hafter
          rw [if_neg (by rw [hcount, List.length_nil]; omega)] at hmerge
          cases right with
          | nil => cases hafter
          | cons d right =>
              have hd : Fresh d := hr d List.mem_cons_self
              obtain ⟨next', rest, hleavesd⟩ := List.exists_cons_of_ne_nil hd.2.leaves_ne_nil
              have hgetd : node.children[left.length + 1]? = some d := by simp [hchildren]
              rw [leavesOf_cons, hleavesd, List.cons_append] at hafter
              obtain ⟨rfl, rfl⟩ := List.cons.inj hafter
              simp only [hgetd] at hmerge
              split at hmerge
              · cases hmerge
              · next m merged' hm =>
                  simp only [Option.bind_eq_some_iff, Option.pure_def, Option.some.injEq,
                    Prod.mk.injEq] at hmerge
                  obtain ⟨result, hresult, rfl, rfl⟩ := hmerge
                  obtain ⟨hindexed, hjoined⟩ := mergeNodes_spec hfresh.2 hd.2 hm
                  rw [hchildren, eraseIdx_append_cons] at hresult
                  obtain ⟨hall, hleaves'⟩ := replaceChild_spec hresult hl
                    (fun e he => hr e (List.mem_cons_of_mem _ he))
                    (fun node hnode => (List.mem_singleton.mp hnode) ▸ hindexed)
                  refine ⟨hall, ?_⟩
                  rw [hleaves', leavesAll, List.flatMap_singleton]
                  rw [hc, hleavesd] at hjoined
                  simpa using hjoined.extend (leavesOf left) (leavesOf right)

variable (mem) in
/-- A root with one child goes, level by level, and the leaves stay. -/
theorem removeRedundantRoot_spec {node : Level Key Value n} (h : Indexed n node) :
    Indexed (removeRedundantRoot mem n node).height (removeRedundantRoot mem n node).root
      ∧ (removeRedundantRoot mem n node).leaves = leaves n node := by
  induction n with
  | zero => exact ⟨h, rfl⟩
  | succ n ih =>
      have hcases : removeRedundantRoot mem (n + 1) node = ⟨n + 1, node⟩
          ∨ ∃ c, node.children = [c]
            ∧ removeRedundantRoot mem (n + 1) node = removeRedundantRoot mem n c.2 := by
        rw [removeRedundantRoot]
        split
        · next c hchildren =>
            split_ifs
            · exact Or.inr ⟨c, hchildren, rfl⟩
            · exact Or.inl rfl
        · exact Or.inl rfl
      obtain hstays | ⟨c, hchildren, hcode⟩ := hcases
      · rw [hstays]
        exact ⟨h, rfl⟩
      · have hc : c ∈ node.children := by
          rw [hchildren]
          exact List.mem_cons_self
        rw [hcode, leaves_succ, hchildren, leavesOf_cons, leavesOf_nil, List.append_nil]
        exact ih (h.2 c hc).2

theorem mergeNodes_of_seamFits {a b : Level Key Value n} (h : seamFits mem n a b = true) :
    ∃ m, mergeNodes mem n a b = some (m, true) := by
  induction n with
  | zero =>
      rw [seamFits] at h
      exact ⟨_, by rw [mergeNodes, if_pos h]⟩
  | succ n ih =>
      rw [seamFits, Bool.and_eq_true] at h
      obtain ⟨hfits, hseam⟩ := h
      split at hseam
      · next x y hx hy =>
          obtain ⟨m, hm⟩ := ih hseam
          exact ⟨_, by simp only [mergeNodes, if_pos hfits, hx, hy, hm]; rfl⟩
      · cases hseam

/-- Where the nodes at the seam fit together, the leaves become one. -/
theorem mergeLeaves_of_seamAt {isRoot : Bool} {node : Level Key Value n} {number : Nat}
    {outcome : Option (List (Level Key Value n) × Bool)} (h : seamAt mem n node number = true)
    (hmerge : mergeLeaves mem n isRoot node number = some outcome) :
    ∃ nodes, outcome = some (nodes, true) := by
  induction n generalizing isRoot number with
  | zero => cases h
  | succ n ih =>
      rw [seamAt] at h
      split at h
      · cases h
      · next idx inner hlocate =>
          split at h
          · cases h
          · next c hget =>
              simp only [mergeLeaves, hlocate, hget, Option.bind_eq_bind, Option.bind_some]
                at hmerge
              split_ifs at h hmerge with hlt
              · rw [Option.bind_eq_some_iff] at hmerge
                obtain ⟨below, hbelow, hmerge⟩ := hmerge
                obtain ⟨nodes, rfl⟩ := ih h hbelow
                simp only [Option.bind_eq_some_iff, Option.pure_def, Option.some.injEq] at hmerge
                obtain ⟨result, -, rfl⟩ := hmerge
                exact ⟨result, rfl⟩
              · split at h
                · cases h
                · next d hd =>
                    obtain ⟨m, hm⟩ := mergeNodes_of_seamFits h
                    simp only [hd, hm, Option.bind_eq_some_iff, Option.pure_def,
                      Option.some.injEq] at hmerge
                    obtain ⟨result, -, rfl⟩ := hmerge
                    exact ⟨result, rfl⟩

/-- A merge attempt joins the two leaves, or leaves the list of leaves as it is. -/
theorem Tree.mergeLeafNodes_spec {t t' : Tree Key Value} (h : Indexed t.height t.root)
    {before after : List (List (Key × Value))} {leaf next : List (Key × Value)}
    (hleaves : t.leaves = before ++ leaf :: next :: after)
    (hmerge : t.mergeLeafNodes mem before.length = some t') :
    Indexed t'.height t'.root ∧ (t'.leaves = before ++ (leaf ++ next) :: after
      ∨ t'.leaves = t.leaves ∧ ¬ seamAt mem t.height t.root before.length = true) := by
  simp only [Tree.mergeLeafNodes, Option.bind_eq_bind, Option.bind_eq_some_iff] at hmerge
  obtain ⟨outcome, houtcome, hmerge⟩ := hmerge
  cases outcome with
  | none =>
      cases hmerge
      refine ⟨h, Or.inr ⟨rfl, ?_⟩⟩
      intro hseam
      obtain ⟨nodes, hnodes⟩ := mergeLeaves_of_seamAt hseam houtcome
      cases hnodes
  | some outcome =>
      obtain ⟨nodes, merged⟩ := outcome
      simp only [Option.bind_eq_some_iff] at hmerge
      obtain ⟨grown, hgrown, hmerge⟩ := hmerge
      obtain ⟨hindexed, hjoined⟩ := mergeLeaves_spec h hleaves houtcome
      obtain ⟨hroot, hgrownLeaves⟩ := growRoot_spec hgrown hindexed
      cases merged with
      | false =>
          cases hmerge
          refine ⟨hroot, Or.inr ⟨?_, ?_⟩⟩
          · have heq : leavesAll nodes = before ++ [leaf] ++ next :: after := hjoined
            rw [hgrownLeaves, heq, hleaves]
            simp
          · intro hseam
            obtain ⟨nodes', hnodes'⟩ := mergeLeaves_of_seamAt hseam houtcome
            cases hnodes'
      | true =>
          cases hmerge
          obtain ⟨hroot', hleaves'⟩ := removeRedundantRoot_spec mem hroot
          refine ⟨hroot', Or.inl ?_⟩
          obtain ⟨init, x, y, rest, hinit, hrest, hall⟩ := hjoined
          obtain ⟨rfl, hx⟩ := List.append_inj' hinit rfl
          obtain ⟨rfl, rfl⟩ := List.cons.inj hrest
          rw [List.singleton_inj] at hx
          subst hx
          exact hleaves'.trans (hgrownLeaves.trans hall)

/-- Where the keys above an emptied leaf fit, the edit that empties it gives the cleared node. -/
theorem editLeaf_of_cleared
    (edit : Bool → List (Key × Value) → Option (List (List (Key × Value)))) {isRoot : Bool}
    {node cleared' : Level Key Value n} (h : Indexed n node)
    {before after : List (List (Key × Value))} {leaf : List (Key × Value)}
    (hleaves : leaves n node = before ++ leaf :: after)
    (hedit : ∀ isRoot, edit isRoot leaf = some [[]])
    (hcleared : cleared mem n isRoot node before.length = some cleared') :
    editLeaf mem edit n isRoot node before.length = some [cleared'] := by
  induction n generalizing isRoot before after with
  | zero =>
      rw [leaves_zero] at hleaves
      cases before with
      | nil =>
          obtain ⟨hleaf, -⟩ := List.cons.inj hleaves
          rw [editLeaf, hleaf, hedit, ← Option.some.inj hcleared]
          rfl
      | cons leaf' before => simp at hleaves
  | succ n ih =>
      obtain ⟨left, c, right, b, a, hchildren, hlocate, hget, hc, rfl, rfl, -, hfresh, -⟩ :=
        locate_indexed h hleaves
      simp only [cleared, hlocate, hget, Option.bind_eq_bind, Option.bind_some,
        Option.bind_eq_some_iff] at hcleared
      obtain ⟨d, hd, hcleared⟩ := hcleared
      split_ifs at hcleared with hfits
      cases hcleared
      simp only [editLeaf, hlocate, hget, Option.bind_eq_bind, Option.bind_some,
        ih hfresh.2 hc hd]
      exact replaceChild_of_fits hfits

omit [Inhabited Key] in
/-- A change of the leaf behind the position is made in the leaf or in one of its halves. -/
theorem onLeaf_spec {put : Nat → List (Key × Value) → Option (List (Key × Value))}
    {f : List (Key × Value) → Option (List (Key × Value))}
    (hput : ∀ p q, put p.length (p ++ q) = (f q).map (p ++ ·))
    (hlocal : ∀ q q' r, f q = some q' → f (q ++ r) = some (q' ++ r))
    (hsome : ∀ q q', f q = some q' → q' ≠ []) {isRoot : Bool} {pre post : List (Key × Value)}
    {new : List (List (Key × Value))}
    (hroom : isRoot = true → pre.length ≤ 1 → post = [] → ∀ q, f [] = some q →
      mem.leaf true (pre ++ q) = true)
    (h : onLeaf mem put pre.length isRoot (pre ++ post) = some new) :
    ∃ q, f post = some q ∧ new.flatten = pre ++ q ∧ ∀ leaf ∈ new, leaf ≠ [] := by
  simp only [onLeaf, hput, Option.bind_eq_bind, Option.bind_eq_some_iff, Option.map_eq_some_iff]
    at h
  obtain ⟨whole, ⟨q, hq, rfl⟩, h⟩ := h
  have hqne := hsome _ _ hq
  refine ⟨q, hq, ?_⟩
  set splitIdx := (pre ++ post).length / 2 with hsplitIdx
  have hlen : (pre ++ post).length = pre.length + post.length := List.length_append
  have hhalves := List.take_append_drop splitIdx (pre ++ post)
  have htake : ((pre ++ post).take splitIdx).length = splitIdx := by
    rw [List.length_take]
    omega
  have hdrop : ((pre ++ post).drop splitIdx).length = (pre ++ post).length - splitIdx :=
    List.length_drop
  split_ifs at h with hwhole hside
  · cases h
    simpa using fun _ => hqne
  · -- the right half holds the position
    obtain ⟨m, hpre, hright⟩ : ∃ m, pre = (pre ++ post).take splitIdx ++ m
        ∧ (pre ++ post).drop splitIdx = m ++ post := by
      obtain ⟨m, hm⟩ | ⟨m, hm, -⟩ := List.append_eq_append_iff.mp hhalves
      · exact ⟨m, hm⟩
      · have := congrArg List.length hm
        rw [htake, List.length_append] at this
        omega
    have hm : pre.length - splitIdx = m.length := by
      have := congrArg List.length hpre
      rw [List.length_append, htake] at this
      omega
    rw [hm, hright] at h
    simp only [hput, hq, Option.map_some, Option.bind_some] at h
    split_ifs at h with hfits
    cases h
    constructor
    · simp only [List.flatten_cons, List.flatten_nil, List.append_nil]
      rw [← List.append_assoc, ← hpre]
    · have hpos : 0 < splitIdx := by
        by_contra hzero
        have hnil : splitIdx = 0 := by omega
        rw [hnil, List.take_zero, List.nil_append] at hpre
        rw [← hpre] at hfits
        have hpost : post = [] := List.eq_nil_of_length_eq_zero (by omega)
        cases isRoot with
        | false => exact hwhole hfits
        | true => exact hwhole (hroom rfl (by omega) hpost q (hpost ▸ hq))
      intro leaf hleaf
      simp only [List.mem_cons, List.not_mem_nil, or_false] at hleaf
      obtain rfl | rfl := hleaf
      · rw [← List.length_pos_iff_ne_nil, htake]
        exact hpos
      · simp [hqne]
  · -- the left half holds the position
    obtain ⟨m, hleft, hpost⟩ : ∃ m, (pre ++ post).take splitIdx = pre ++ m
        ∧ post = m ++ (pre ++ post).drop splitIdx := by
      obtain ⟨m, hm, hm'⟩ | ⟨m, hm⟩ := List.append_eq_append_iff.mp hhalves
      · have hlen' := congrArg List.length hm
        rw [List.length_append, htake] at hlen'
        have hnil : m = [] := List.eq_nil_of_length_eq_zero (by omega)
        rw [hnil, List.append_nil] at hm
        rw [hnil, List.nil_append] at hm'
        exact ⟨[], by rw [List.append_nil]; exact hm.symm, hm'.symm⟩
      · exact ⟨m, hm⟩
    rw [hleft] at h
    simp only [hput, Option.bind_eq_some_iff, Option.map_eq_some_iff] at h
    obtain ⟨left, ⟨m', hm', rfl⟩, h⟩ := h
    split_ifs at h with hfits
    cases h
    have hq' : q = m' ++ (pre ++ post).drop splitIdx := by
      have := hlocal _ _ ((pre ++ post).drop splitIdx) hm'
      rw [← hpost, hq] at this
      exact Option.some.inj this
    constructor
    · simp only [List.flatten_cons, List.flatten_nil, List.append_nil]
      rw [hq', List.append_assoc]
    · have hpos : 0 < (pre ++ post).length := by
        by_contra hzero
        have hpre : pre = [] := List.eq_nil_of_length_eq_zero (by omega)
        have hnil : post = [] := List.eq_nil_of_length_eq_zero (by omega)
        have hm : m = [] := by
          rw [hnil] at hpost
          exact (List.append_eq_nil_iff.mp hpost.symm).1
        have hsame : m' = q := by
          rw [hm] at hm'
          rw [hnil, hm'] at hq
          exact Option.some.inj hq
        rw [hsame] at hfits
        cases isRoot with
        | false => exact hwhole hfits
        | true => exact hwhole (hroom rfl (by omega) hnil q (hnil ▸ hq))
      intro leaf hleaf
      simp only [List.mem_cons, List.not_mem_nil, or_false] at hleaf
      obtain rfl | rfl := hleaf
      · simp [hsome _ _ hm']
      · rw [← List.length_pos_iff_ne_nil, hdrop]
        omega

structure Tree.Packed (t : Tree Key Value) : Prop where
  indexed : Indexed t.height t.root
  nonempty : t.leaves.length = 1 ∨ ∀ leaf ∈ t.leaves, leaf ≠ []

structure Tree.At (t : Tree Key Value) (it : Iter) (before : List (List (Key × Value)))
    (pre post : List (Key × Value)) (after : List (List (Key × Value))) : Prop where
  leaves : t.leaves = before ++ (pre ++ post) :: after
  leaf : it.leaf = before.length
  pos : it.pos = pre.length

variable {t t' : Tree Key Value} {it : Iter} {before after : List (List (Key × Value))}
  {pre post : List (Key × Value)}

omit [Inhabited Key] in
theorem Tree.At.entries (h : t.At it before pre post after) :
    t.entries = before.flatten ++ pre ++ (post ++ after.flatten) := by
  rw [Tree.entries, h.leaves]
  simp

omit [Inhabited Key] in
theorem Tree.At.others_ne (h : t.At it before pre post after)
    (hne : t.leaves.length = 1 ∨ ∀ leaf ∈ t.leaves, leaf ≠ []) :
    ∀ leaf ∈ before ++ after, leaf ≠ [] := by
  intro leaf hleaf
  obtain hone | hall := hne
  · rw [h.leaves, List.length_append, List.length_cons] at hone
    have hnil : before ++ after = [] := by
      refine List.eq_nil_of_length_eq_zero ?_
      rw [List.length_append]
      omega
    rw [hnil] at hleaf
    cases hleaf
  · refine hall leaf ?_
    rw [h.leaves]
    rw [List.mem_append] at hleaf
    simp [hleaf.imp_right Or.inr]

omit [Inhabited Key] in
theorem Tree.At.of_height_zero (h : t.At it before pre post after) (hzero : t.height = 0) :
    before = [] ∧ after = [] := by
  obtain ⟨height, root⟩ := t
  cases hzero
  have hlen := congrArg List.length h.leaves
  rw [Tree.leaves, leaves_zero, List.length_append, List.length_singleton, List.length_cons] at hlen
  exact ⟨List.eq_nil_of_length_eq_zero (by omega), List.eq_nil_of_length_eq_zero (by omega)⟩

/-- A change of the leaf behind the iterator. -/
theorem Tree.Packed.onLeaf (h : t.Packed) (hat : t.At it before pre post after)
    {put : Nat → List (Key × Value) → Option (List (Key × Value))}
    {f : List (Key × Value) → Option (List (Key × Value))}
    (hput : ∀ p q, put p.length (p ++ q) = (f q).map (p ++ ·))
    (hlocal : ∀ q q' r, f q = some q' → f (q ++ r) = some (q' ++ r))
    (hsome : ∀ q q', f q = some q' → q' ≠ [])
    (hroom : t.height = 0 → pre.length ≤ 1 → post = [] → ∀ q, f [] = some q →
      mem.leaf true (pre ++ q) = true)
    (hedit : t.edit mem it.leaf (SetMap.onLeaf mem put it.pos) = some t') :
    t'.Packed ∧ ∃ q, f post = some q
      ∧ t'.entries = before.flatten ++ pre ++ (q ++ after.flatten) := by
  rw [hat.leaf, hat.pos] at hedit
  obtain ⟨isRoot, new, hnew, hzero, hroot, hleaves⟩ := Tree.edit_spec h.indexed hat.leaves hedit
  obtain ⟨q, hq, hflat, hne⟩ := onLeaf_spec hput hlocal hsome (fun hr => hroom (hzero hr)) hnew
  have hothers := hat.others_ne h.nonempty
  refine ⟨⟨hroot, Or.inr ?_⟩, q, hq, ?_⟩
  · intro leaf hleaf
    rw [hleaves, List.mem_append, List.mem_append] at hleaf
    obtain (hleaf | hleaf) | hleaf := hleaf
    · exact hothers leaf (List.mem_append_left _ hleaf)
    · exact hne leaf hleaf
    · exact hothers leaf (List.mem_append_right _ hleaf)
  · rw [Tree.entries, hleaves, List.flatten_append, List.flatten_append, hflat]
    simp

theorem Tree.Packed.insertEntry (h : t.Packed) (hat : t.At it before pre post after)
    {entry : Key × Value} (hroom : t.Insertable mem it entry)
    (hinsert : t.insertEntry mem it entry = some t') :
    t'.Packed ∧ t'.entries = before.flatten ++ pre ++ (entry :: post ++ after.flatten) := by
  have hput : ∀ p q, insertAt entry p.length (p ++ q) = (some (entry :: q)).map (p ++ ·) := by
    intro p q
    rw [insertAt, ValueArray.insertEntries, if_pos (by simp), List.take_left, List.drop_left]
    simp
  have hfits : t.height = 0 → pre.length ≤ 1 → post = [] → ∀ q, some [entry] = some q →
      mem.leaf true (pre ++ q) = true := by
    rintro hzero hlen rfl q hq
    rw [← Option.some.inj hq]
    obtain ⟨rfl, rfl⟩ := hat.of_height_zero hzero
    have hentries : t.entries = pre := by simpa using hat.entries
    rw [Tree.Insertable, hentries] at hroom
    exact hroom hzero hlen hat.pos
  obtain ⟨hpacked, q, hq, hentries⟩ := h.onLeaf hat hput
    (fun q q' r hq => by cases hq; rfl) (fun q q' hq => by cases hq; simp) hfits hinsert
  cases hq
  exact ⟨hpacked, hentries⟩

theorem Tree.Packed.updateEntry (h : t.Packed) {entry : Key × Value}
    (hat : t.At it before pre (entry :: post) after) {value : Value}
    (hupdate : t.updateEntry mem it value = some t') :
    t'.Packed
      ∧ t'.entries = before.flatten ++ pre ++ ((entry.1, value) :: post ++ after.flatten) := by
  set assign : List (Key × Value) → Option (List (Key × Value)) :=
    fun q => q.head?.map fun e => (e.1, value) :: q.tail with hassign
  have hput : ∀ p q, assignAt value p.length (p ++ q) = (assign q).map (p ++ ·) := by
    intro p q
    cases q with
    | nil => simp [assignAt, hassign]
    | cons e q =>
        simp [assignAt, hassign, ValueArray.setValues, ValueArray.removeSpace, ValueArray.insertEntries]
  have hlocal : ∀ q q' r, assign q = some q' → assign (q ++ r) = some (q' ++ r) := by
    intro q q' r hq
    cases q with
    | nil => cases hq
    | cons e q =>
        cases hq
        rfl
  have hsome : ∀ q q', assign q = some q' → q' ≠ [] := by
    intro q q' hq
    cases q with
    | nil => cases hq
    | cons e q =>
        cases hq
        exact List.cons_ne_nil _ _
  obtain ⟨hpacked, q, hq, hentries⟩ := h.onLeaf hat hput hlocal hsome
    (fun _ _ hnil => absurd hnil (List.cons_ne_nil _ _)) hupdate
  cases hq
  exact ⟨hpacked, hentries⟩

/-- The entry leaves its leaf. If that empties the leaf beside others, the nodes at the seam fit
together. -/
theorem Tree.Packed.takeOut (h : t.Packed) {entry : Key × Value}
    (hat : t.At it before pre (entry :: post) after) (hok : t.Removable mem it)
    (hedit : t.edit mem it.leaf (fun _ entries => (removeAt it.pos entries).map fun leaf => [leaf])
      = some t') :
    Indexed t'.height t'.root ∧ t'.leaves = before ++ (pre ++ post) :: after
      ∧ (pre ++ post = [] → before ++ after ≠ [] → seamAt mem t'.height t'.root
        (if before.length + 1 < t.leaves.length then before.length else before.length - 1)
          = true) := by
  have hremoved : (removeAt pre.length (pre ++ entry :: post)).map (fun leaf => [leaf])
      = some [pre ++ post] := by
    simp [removeAt, ValueArray.removeSpace]
  rw [hat.leaf, hat.pos] at hedit
  obtain ⟨-, new, hnew, -, hroot, hleaves⟩ := Tree.edit_spec h.indexed hat.leaves hedit
  rw [hremoved] at hnew
  refine ⟨hroot, ?_, ?_⟩
  · rw [hleaves, ← Option.some.inj hnew]
    simp
  · intro hnil hothers
    have hlen : t.leaves.length = (before ++ after).length + 1 := by
      rw [hat.leaves]
      simp only [List.length_append, List.length_cons]
      omega
    have haway : t.mergesAway mem it.leaf = true := by
      obtain hone | hmany | haway := hok
      · have := List.length_pos_of_ne_nil hothers
        omega
      · have hget : t.leaves[it.leaf]? = some (pre ++ entry :: post) := by
          rw [hat.leaves, hat.leaf]
          simp
        have hlong := hmany _ hget
        have hshort := congrArg List.length hnil
        simp only [List.length_append, List.length_cons, List.length_nil] at hlong hshort
        omega
      · exact haway
    rw [Tree.mergesAway, hat.leaf] at haway
    split at haway
    · cases haway
    · next root hcleared =>
        rw [hnil] at hremoved
        have hcode := editLeaf_of_cleared
          (fun _ entries => (removeAt pre.length entries).map fun leaf => [leaf])
          h.indexed hat.leaves (fun _ => hremoved) hcleared
        rw [Tree.edit, hcode] at hedit
        cases hedit
        exact haway

/-- A merge attempt keeps the entries, and with a seam that fits it takes an empty leaf away. -/
theorem Tree.mergeLeafNodes_packed (h : Indexed t.height t.root) {leaf next : List (Key × Value)}
    (hleaves : t.leaves = before ++ leaf :: next :: after) (hothers : ∀ l ∈ before ++ after, l ≠ [])
    (hne : leaf ++ next ≠ [])
    (hseam : leaf = [] ∨ next = [] → seamAt mem t.height t.root before.length = true)
    (hmerge : t.mergeLeafNodes mem before.length = some t') :
    t'.Packed ∧ t'.entries = t.entries := by
  obtain ⟨hroot, hjoined | ⟨hsame, hnot⟩⟩ := Tree.mergeLeafNodes_spec h hleaves hmerge
  · refine ⟨⟨hroot, Or.inr ?_⟩, ?_⟩
    · intro l hl
      rw [hjoined, List.mem_append, List.mem_cons] at hl
      obtain hl | rfl | hl := hl
      · exact hothers l (List.mem_append_left _ hl)
      · exact hne
      · exact hothers l (List.mem_append_right _ hl)
    · rw [Tree.entries, Tree.entries, hleaves, hjoined]
      simp
  · refine ⟨⟨hroot, Or.inr ?_⟩, by rw [Tree.entries, Tree.entries, hsame]⟩
    intro l hl
    rw [hsame, hleaves, List.mem_append, List.mem_cons, List.mem_cons] at hl
    obtain hl | rfl | rfl | hl := hl
    · exact hothers l (List.mem_append_left _ hl)
    · exact fun hnil => hnot (hseam (Or.inl hnil))
    · exact fun hnil => hnot (hseam (Or.inr hnil))
    · exact hothers l (List.mem_append_right _ hl)

theorem Tree.Packed.removeEntry (h : t.Packed) {entry : Key × Value}
    (hat : t.At it before pre (entry :: post) after) (hok : t.Removable mem it)
    (hremove : t.removeEntry mem it = some t') :
    t'.Packed ∧ t'.entries = before.flatten ++ pre ++ (post ++ after.flatten) := by
  simp only [Tree.removeEntry, Option.bind_eq_bind, Option.bind_eq_some_iff] at hremove
  obtain ⟨t₁, hedit, hremove⟩ := hremove
  obtain ⟨hroot, hleaves, hseam⟩ := h.takeOut hat hok hedit
  have hothers := hat.others_ne h.nonempty
  have hentries : t₁.entries = before.flatten ++ pre ++ (post ++ after.flatten) := by
    rw [Tree.entries, hleaves]
    simp
  rw [← hentries]
  have hlen : t.leaves.length = before.length + 1 + after.length := by
    rw [hat.leaves, List.length_append, List.length_cons]
    omega
  have hlen₁ : t₁.leaves.length = before.length + 1 + after.length := by
    rw [hleaves, List.length_append, List.length_cons]
    omega
  rw [hlen] at hseam
  rw [hlen₁, hat.leaf] at hremove
  cases after with
  | cons next after =>
      have hlt : before.length + 1 < before.length + 1 + (next :: after).length := by simp
      have hnext : next ≠ [] := hothers next (by simp)
      rw [if_pos hlt] at hremove hseam
      refine Tree.mergeLeafNodes_packed hroot hleaves ?_ (by simp [hnext]) ?_ hremove
      · intro l hl
        refine hothers l ?_
        rw [List.mem_append] at hl ⊢
        exact hl.imp_right (List.mem_cons_of_mem _)
      · rintro (hnil | hnil)
        · exact hseam hnil (by simp)
        · exact absurd hnil hnext
  | nil =>
      rw [if_neg (by simp)] at hremove hseam
      obtain rfl | ⟨init, prev, rfl⟩ := List.eq_nil_or_concat' before
      · cases hremove
        refine ⟨⟨hroot, Or.inl ?_⟩, rfl⟩
        rw [hlen₁]
        rfl
      · have hprev : prev ≠ [] := hothers prev (by simp)
        have hidx : (init ++ [prev]).length - 1 = init.length := by simp
        rw [if_pos (by simp), hidx] at hremove
        rw [hidx] at hseam
        have hsplit : t₁.leaves = init ++ prev :: (pre ++ post) :: [] := by simp [hleaves]
        refine Tree.mergeLeafNodes_packed hroot hsplit ?_ (by simp [hprev]) ?_ hremove
        · intro l hl
          exact hothers l (by simp_all)
        · rintro (hnil | hnil)
          · exact absurd hnil hprev
          · exact hseam hnil (by simp)

end Memoria.SetMap

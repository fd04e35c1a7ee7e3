import Mathlib.Data.List.Nodup
import Mathlib.Data.List.Perm.Basic

/-!
# Trees of uniform height in a heap

A node is a list of entries: keys with values in a leaf, keys with child addresses in a branch. A
tree whose leaves are all at one depth unfolds from its root level by level, and `Slot l` is what an
entry of a node at level `l` stands for: a value at level zero, and a whole node of the level below
otherwise. A node of the unfolded tree carries its address, so that the tree says what every address
it occupies must hold.

A position in the tree is a node with its context, the list of frames from its parent to the root,
which is also how an algorithm that keeps a path of addresses sees it. A fork is the context of two
neighbouring nodes at once.
-/

namespace Memoria.Lib

inductive Content (K V : Type) where
  | leaf (entries : List (K × V))
  | branch (entries : List (K × Nat))
deriving DecidableEq, Repr

def Content.keys {K V : Type} : Content K V → List K
  | .leaf entries => entries.map Prod.fst
  | .branch entries => entries.map Prod.fst

def Slot (K V : Type) : Nat → Type
  | 0 => V
  | l + 1 => Nat × List (K × Slot K V l)

abbrev Root (K V : Type) : Type := Σ l, Slot K V (l + 1)

section Marked

variable {α : Type} (a b : List α) (x y : α)

theorem modify_append_cons (g : α → α) : (a ++ x :: b).modify a.length g = a ++ g x :: b := by
  induction a with
  | nil => rfl
  | cons z a ih => simp [ih]

theorem insertIdx_append_cons : (a ++ x :: b).insertIdx (a.length + 1) y = a ++ x :: y :: b := by
  induction a with
  | nil => rfl
  | cons z a ih => simpa using ih

theorem eraseIdx_append_cons : (a ++ x :: y :: b).eraseIdx (a.length + 1) = a ++ x :: b := by
  induction a with
  | nil => rfl
  | cons z a ih => simpa using ih

end Marked

variable {K V : Type} {l : Nat}

namespace Slot

def node (p : Nat) (es : List (K × Slot K V l)) : Slot K V (l + 1) := (p, es)

def addr (s : Slot K V (l + 1)) : Nat := s.1

def entries (s : Slot K V (l + 1)) : List (K × Slot K V l) := s.2

def bindings (s : Slot K V 1) : List (K × V) := s.entries

def leaf (p : Nat) (bs : List (K × V)) : Slot K V 1 := (p, bs)

@[simp] theorem addr_leaf (p : Nat) (bs : List (K × V)) : (leaf p bs).addr = p := rfl

@[simp] theorem bindings_leaf (p : Nat) (bs : List (K × V)) : (leaf p bs).bindings = bs := rfl

@[simp] theorem leaf_eta (s : Slot K V 1) : leaf s.addr s.bindings = s := rfl

@[simp] theorem addr_node (p : Nat) (es : List (K × Slot K V l)) : (node p es).addr = p := rfl

@[simp] theorem entries_node (p : Nat) (es : List (K × Slot K V l)) :
    (node p es).entries = es := rfl

@[simp] theorem node_eta (s : Slot K V (l + 1)) : node s.addr s.entries = s := rfl

end Slot

def pointers (es : List (K × Slot K V (l + 1))) : List (K × Nat) :=
  es.map fun e => (e.1, e.2.addr)

@[simp] theorem pointers_nil : pointers ([] : List (K × Slot K V (l + 1))) = [] := rfl

@[simp] theorem pointers_cons (e : K × Slot K V (l + 1)) (es : List (K × Slot K V (l + 1))) :
    pointers (e :: es) = (e.1, e.2.addr) :: pointers es := rfl

@[simp] theorem pointers_append (es es' : List (K × Slot K V (l + 1))) :
    pointers (es ++ es') = pointers es ++ pointers es' := List.map_append

@[simp] theorem length_pointers (es : List (K × Slot K V (l + 1))) :
    (pointers es).length = es.length := List.length_map _

def content : (l : Nat) → List (K × Slot K V l) → Content K V
  | 0, es => .leaf es
  | _ + 1, es => .branch (pointers es)

def addrs : (l : Nat) → Slot K V l → List Nat
  | 0, _ => []
  | l + 1, s => s.addr :: s.entries.flatMap fun e => addrs l e.2

def addrsOf (es : List (K × Slot K V l)) : List Nat := es.flatMap fun e => addrs l e.2

def flat : (l : Nat) → K × Slot K V l → List (K × V)
  | 0, e => [e]
  | l + 1, e => e.2.entries.flatMap (flat l)

def flatOf (es : List (K × Slot K V l)) : List (K × V) := es.flatMap (flat l)

def Rep (m : Nat → Option (Content K V)) : (l : Nat) → Slot K V l → Prop
  | 0, _ => True
  | l + 1, s => m s.addr = some (content l s.entries) ∧ ∀ e ∈ s.entries, Rep m l e.2

def RepOf (m : Nat → Option (Content K V)) (es : List (K × Slot K V l)) : Prop :=
  ∀ e ∈ es, Rep m l e.2

theorem content_keys (es : List (K × Slot K V l)) :
    (content l es).keys = es.map Prod.fst := by
  cases l with
  | zero => rfl
  | succ l => exact List.map_map

theorem content_succ (es : List (K × Slot K V (l + 1))) :
    content (l + 1) es = .branch (pointers es) := rfl

@[simp] theorem addrsOf_nil : addrsOf ([] : List (K × Slot K V l)) = [] := rfl

@[simp] theorem addrsOf_cons (e : K × Slot K V l) (es : List (K × Slot K V l)) :
    addrsOf (e :: es) = addrs l e.2 ++ addrsOf es := rfl

@[simp] theorem addrsOf_append (es es' : List (K × Slot K V l)) :
    addrsOf (es ++ es') = addrsOf es ++ addrsOf es' := List.flatMap_append

theorem addrs_node (s : Slot K V (l + 1)) : addrs (l + 1) s = s.addr :: addrsOf s.entries := rfl

@[simp] theorem flatOf_nil : flatOf ([] : List (K × Slot K V l)) = [] := rfl

@[simp] theorem flatOf_cons (e : K × Slot K V l) (es : List (K × Slot K V l)) :
    flatOf (e :: es) = flat l e ++ flatOf es := rfl

@[simp] theorem flatOf_append (es es' : List (K × Slot K V l)) :
    flatOf (es ++ es') = flatOf es ++ flatOf es' := List.flatMap_append

theorem flat_succ (e : K × Slot K V (l + 1)) : flat (l + 1) e = flatOf e.2.entries := rfl

theorem flatOf_zero (es : List (K × Slot K V 0)) : flatOf es = es := by
  induction es with
  | nil => rfl
  | cons e es ih =>
      rw [flatOf_cons, ih]
      rfl

theorem content_zero (s : Slot K V 1) : content 0 s.entries = .leaf s.bindings := rfl

theorem flatOf_leaf (s : Slot K V 1) : flatOf s.entries = s.bindings := flatOf_zero s.entries

theorem rep_node {m : Nat → Option (Content K V)} {s : Slot K V (l + 1)} :
    Rep m (l + 1) s ↔ m s.addr = some (content l s.entries) ∧ RepOf m s.entries := Iff.rfl

@[simp] theorem repOf_nil {m : Nat → Option (Content K V)} :
    RepOf m ([] : List (K × Slot K V l)) := fun _ h => by cases h

@[simp] theorem repOf_cons {m : Nat → Option (Content K V)} {e : K × Slot K V l}
    {es : List (K × Slot K V l)} : RepOf m (e :: es) ↔ Rep m l e.2 ∧ RepOf m es := by
  simp [RepOf]

@[simp] theorem repOf_append {m : Nat → Option (Content K V)} {es es' : List (K × Slot K V l)} :
    RepOf m (es ++ es') ↔ RepOf m es ∧ RepOf m es' := by
  simp only [RepOf, List.mem_append]
  constructor
  · intro h
    exact ⟨fun e he => h e (Or.inl he), fun e he => h e (Or.inr he)⟩
  · rintro ⟨h, h'⟩ e (he | he)
    · exact h e he
    · exact h' e he

/-- Only the addresses of the slot matter. -/
theorem Rep.congr {m m' : Nat → Option (Content K V)} {s : Slot K V l}
    (hrep : Rep m l s) (hsame : ∀ p ∈ addrs l s, m' p = m p) : Rep m' l s := by
  induction l with
  | zero => trivial
  | succ l ih =>
      refine ⟨?_, ?_⟩
      · rw [hsame s.addr List.mem_cons_self]
        exact hrep.1
      · intro e he
        refine ih (hrep.2 e he) ?_
        intro p hp
        exact hsame p (List.mem_cons_of_mem _ (List.mem_flatMap.mpr ⟨e, he, hp⟩))

theorem RepOf.congr {m m' : Nat → Option (Content K V)} {es : List (K × Slot K V l)}
    (hrep : RepOf m es) (hsame : ∀ p ∈ addrsOf es, m' p = m p) : RepOf m' es := by
  intro e he
  refine (hrep e he).congr ?_
  intro p hp
  exact hsame p (List.mem_flatMap.mpr ⟨e, he, hp⟩)

/-- Every address of a represented slot holds something. -/
theorem Rep.exists_content {m : Nat → Option (Content K V)} {s : Slot K V l}
    (hrep : Rep m l s) {p : Nat} (hp : p ∈ addrs l s) : ∃ c, m p = some c := by
  induction l with
  | zero => cases hp
  | succ l ih =>
      rcases List.mem_cons.mp hp with rfl | hp
      · exact ⟨_, hrep.1⟩
      · obtain ⟨e, he, hpe⟩ := List.mem_flatMap.mp hp
        exact ih (hrep.2 e he) hpe

/-- An address of a node is its own or is held by another node of it. -/
theorem Rep.parent {m : Nat → Option (Content K V)} {s : Slot K V (l + 1)}
    (hrep : Rep m (l + 1) s) {p : Nat} (hp : p ∈ addrs (l + 1) s) :
    p = s.addr ∨ ∃ q ∈ addrs (l + 1) s, ∃ es, m q = some (.branch es) ∧ ∃ e ∈ es, e.2 = p := by
  induction l with
  | zero =>
      rcases List.mem_cons.mp hp with rfl | hp
      · exact Or.inl rfl
      · obtain ⟨e, -, hpe⟩ := List.mem_flatMap.mp hp
        cases hpe
  | succ l ih =>
      rcases List.mem_cons.mp hp with rfl | hp
      · exact Or.inl rfl
      · refine Or.inr ?_
        obtain ⟨e, he, hpe⟩ := List.mem_flatMap.mp hp
        rcases ih (hrep.2 e he) hpe with rfl | ⟨q, hq, es, hes, hmem⟩
        · refine ⟨s.addr, List.mem_cons_self, pointers s.entries, hrep.1, (e.1, e.2.addr), ?_, rfl⟩
          exact List.mem_map.mpr ⟨e, he, rfl⟩
        · refine ⟨q, List.mem_cons_of_mem _ (List.mem_flatMap.mpr ⟨e, he, hq⟩), es, hes, hmem⟩

/-- Every address of a represented slot is that of a represented node. -/
theorem Rep.subtree {m : Nat → Option (Content K V)} {s : Slot K V l} (hrep : Rep m l s) {p : Nat}
    (hp : p ∈ addrs l s) : ∃ (l' : Nat) (s' : Slot K V (l' + 1)), s'.addr = p ∧ Rep m (l' + 1) s' := by
  induction l with
  | zero => cases hp
  | succ l ih =>
      rcases List.mem_cons.mp hp with rfl | hp
      · exact ⟨l, s, rfl, hrep⟩
      · obtain ⟨e, he, hpe⟩ := List.mem_flatMap.mp hp
        exact ih (hrep.2 e he) hpe

/-- The children of a node are among its addresses. -/
theorem addr_mem_addrsOf {es : List (K × Slot K V (l + 1))} {e : K × Slot K V (l + 1)}
    (he : e ∈ es) : e.2.addr ∈ addrsOf es :=
  List.mem_flatMap.mpr ⟨e, he, List.mem_cons_self⟩

theorem mem_addrsOf_of_mem_pointers {es : List (K × Slot K V (l + 1))} {e : K × Nat}
    (he : e ∈ pointers es) : e.2 ∈ addrsOf es := by
  obtain ⟨d, hd, rfl⟩ := List.mem_map.mp he
  exact addr_mem_addrsOf hd

structure Frame (K V : Type) (l : Nat) where
  addr : Nat
  left : List (K × Slot K V (l + 1))
  key : K
  right : List (K × Slot K V (l + 1))

inductive Ctx (K V : Type) : Nat → Type
  | top {l : Nat} : Ctx K V l
  | up {l : Nat} (f : Frame K V l) (c : Ctx K V (l + 1)) : Ctx K V l

namespace Frame

def plug (f : Frame K V l) (t : Slot K V (l + 1)) : Slot K V (l + 2) :=
  .node f.addr (f.left ++ (f.key, t) :: f.right)

def siblings (f : Frame K V l) : List (K × Slot K V (l + 1)) := f.left ++ f.right

@[simp] theorem addr_plug (f : Frame K V l) (t : Slot K V (l + 1)) : (f.plug t).addr = f.addr :=
  rfl

@[simp] theorem entries_plug (f : Frame K V l) (t : Slot K V (l + 1)) :
    (f.plug t).entries = f.left ++ (f.key, t) :: f.right := rfl

def pointersAt (f : Frame K V l) (p : Nat) : List (K × Nat) :=
  pointers f.left ++ (f.key, p) :: pointers f.right

theorem pointers_plug (f : Frame K V l) (t : Slot K V (l + 1)) :
    pointers (f.plug t).entries = f.pointersAt t.addr := by
  simp [pointersAt]

end Frame

namespace Ctx

def plug : {l : Nat} → Ctx K V l → Slot K V (l + 1) → Root K V
  | l, top, t => ⟨l, t⟩
  | _, up f c, t => c.plug (f.plug t)

def path : {l : Nat} → Ctx K V l → List Nat
  | _, top => []
  | _, up f c => f.addr :: c.path

def siblingAddrs : {l : Nat} → Ctx K V l → List Nat
  | _, top => []
  | _, up f c => addrsOf f.siblings ++ c.siblingAddrs

def before : {l : Nat} → Ctx K V l → List (K × V)
  | _, top => []
  | _, up f c => c.before ++ flatOf f.left

def after : {l : Nat} → Ctx K V l → List (K × V)
  | _, top => []
  | _, up f c => flatOf f.right ++ c.after

def Rep (m : Nat → Option (Content K V)) : {l : Nat} → Ctx K V l → Nat → Prop
  | _, top, _ => True
  | _, up f c, p => m f.addr = some (.branch (f.pointersAt p)) ∧ RepOf m f.siblings ∧
      c.Rep m f.addr

end Ctx

namespace Ctx

theorem Rep.congr {m m' : Nat → Option (Content K V)} {c : Ctx K V l} {p : Nat}
    (hrep : c.Rep m p) (hsame : ∀ q ∈ c.path ++ c.siblingAddrs, m' q = m q) : c.Rep m' p := by
  induction c generalizing p with
  | top => trivial
  | up f c ih =>
      simp only [path, siblingAddrs, List.cons_append, List.mem_cons, List.mem_append] at hsame
      obtain ⟨hbody, hsiblings, hupper⟩ := hrep
      refine ⟨?_, hsiblings.congr fun q hq => hsame q (Or.inr (Or.inr (Or.inl hq))), ih hupper ?_⟩
      · rw [hsame f.addr (Or.inl rfl)]
        exact hbody
      · intro q hq
        rcases List.mem_append.mp hq with hq | hq
        · exact hsame q (Or.inr (Or.inl hq))
        · exact hsame q (Or.inr (Or.inr (Or.inr hq)))

def withPath : {l : Nat} → Ctx K V l → List Nat → Ctx K V l
  | _, top, _ => top
  | _, up f c, [] => up f c
  | _, up f c, p :: ps => up { f with addr := p } (c.withPath ps)

theorem withPath_path (c : Ctx K V l) : c.withPath c.path = c := by
  induction c with
  | top => rfl
  | up f c ih => rw [path, withPath, ih]

theorem path_withPath (c : Ctx K V l) {ps : List Nat} (hlen : ps.length = c.path.length) :
    (c.withPath ps).path = ps := by
  induction c generalizing ps with
  | top => exact (List.length_eq_zero_iff.mp hlen).symm
  | up f c ih =>
      cases ps with
      | nil => simp [path] at hlen
      | cons p ps =>
          rw [withPath, path, ih (by simpa [path] using hlen)]

@[simp] theorem siblingAddrs_withPath (c : Ctx K V l) (ps : List Nat) :
    (c.withPath ps).siblingAddrs = c.siblingAddrs := by
  induction c generalizing ps with
  | top => rfl
  | up f c ih =>
      cases ps with
      | nil => rfl
      | cons p ps =>
          rw [withPath, siblingAddrs, siblingAddrs, ih]
          rfl

@[simp] theorem before_withPath (c : Ctx K V l) (ps : List Nat) :
    (c.withPath ps).before = c.before := by
  induction c generalizing ps with
  | top => rfl
  | up f c ih =>
      cases ps with
      | nil => rfl
      | cons p ps => rw [withPath, before, before, ih]

@[simp] theorem after_withPath (c : Ctx K V l) (ps : List Nat) :
    (c.withPath ps).after = c.after := by
  induction c generalizing ps with
  | top => rfl
  | up f c ih =>
      cases ps with
      | nil => rfl
      | cons p ps => rw [withPath, after, after, ih]

end Ctx

def rootAddrs (r : Root K V) : List Nat := addrs (r.1 + 1) r.2

def RepRoot (m : Nat → Option (Content K V)) (r : Root K V) : Prop := Lib.Rep m (r.1 + 1) r.2

def flatRoot (r : Root K V) : List (K × V) := flatOf r.2.entries

section Plug

theorem rep_frame {m : Nat → Option (Content K V)} (f : Frame K V l) (t : Slot K V (l + 1)) :
    Rep m (l + 2) (f.plug t) ↔ Rep m (l + 1) t ∧
      m f.addr = some (.branch (f.pointersAt t.addr)) ∧ RepOf m f.siblings := by
  rw [rep_node, content_succ, f.pointers_plug]
  simp only [Frame.addr_plug, Frame.entries_plug, Frame.siblings, repOf_append, repOf_cons]
  tauto

theorem repRoot_plug {m : Nat → Option (Content K V)} (c : Ctx K V l) (t : Slot K V (l + 1)) :
    RepRoot m (c.plug t) ↔ Rep m (l + 1) t ∧ c.Rep m t.addr := by
  induction c with
  | top => simp [Ctx.plug, Ctx.Rep, RepRoot]
  | up f c ih => rw [Ctx.plug, ih, rep_frame, Ctx.Rep, Frame.addr_plug, and_assoc, and_assoc]

theorem addrs_frame (f : Frame K V l) (t : Slot K V (l + 1)) :
    (addrs (l + 2) (f.plug t)).Perm
      (addrs (l + 1) t ++ f.addr :: addrsOf f.siblings) := by
  rw [addrs_node]
  simp only [Frame.addr_plug, Frame.entries_plug, Frame.siblings, addrsOf_append, addrsOf_cons]
  refine List.Perm.trans (List.Perm.cons _ ?_) List.perm_middle.symm
  rw [← List.append_assoc, ← List.append_assoc]
  exact List.Perm.append_right _ List.perm_append_comm

/-- The addresses of a tree, seen from one of its nodes. -/
theorem rootAddrs_plug (c : Ctx K V l) (t : Slot K V (l + 1)) :
    (rootAddrs (c.plug t)).Perm (addrs (l + 1) t ++ (c.path ++ c.siblingAddrs)) := by
  induction c with
  | top => simp [Ctx.plug, rootAddrs, Ctx.path, Ctx.siblingAddrs]
  | up f c ih =>
      refine (ih (f.plug t)).trans ?_
      refine ((addrs_frame f t).append_right _).trans ?_
      simp only [Ctx.path, Ctx.siblingAddrs, List.append_assoc, List.cons_append]
      refine List.Perm.append_left _ (List.Perm.cons _ ?_)
      rw [← List.append_assoc, ← List.append_assoc]
      exact List.Perm.append_right _ List.perm_append_comm

theorem flatRoot_plug (c : Ctx K V l) (t : Slot K V (l + 1)) :
    flatRoot (c.plug t) = c.before ++ flatOf t.entries ++ c.after := by
  induction c with
  | top => simp [Ctx.plug, Ctx.before, Ctx.after, flatRoot]
  | up f c ih =>
      rw [Ctx.plug, ih, Frame.entries_plug]
      simp [Ctx.before, Ctx.after, List.append_assoc, flat_succ]

/-- The level of the root. -/
theorem fst_plug (c : Ctx K V l) (t : Slot K V (l + 1)) : (c.plug t).1 = l + c.path.length := by
  induction c with
  | top => rfl
  | up f c ih =>
      rw [Ctx.plug, ih, Ctx.path, List.length_cons]
      omega

/-- The address of the root is the last of the path. -/
theorem getLast_path (c : Ctx K V l) (t : Slot K V (l + 1)) :
    (t.addr :: c.path).getLast? = some (c.plug t).2.addr := by
  induction c with
  | top => rfl
  | up f c ih =>
      rw [Ctx.plug, Ctx.path, List.getLast?_cons_cons]
      exact ih (f.plug t)

end Plug

section Keys

variable [Inhabited K]

def lastKey {S : Type} (es : List (K × S)) : K := (es.map Prod.fst).getLastD default

theorem lastKey_append_cons {S : Type} (es es' : List (K × S)) (e : K × S) :
    lastKey (es ++ e :: es') = lastKey (e :: es') := by
  simp only [lastKey, List.map_append, List.map_cons, List.getLastD_eq_getLast?,
    List.getLast?_append]
  rw [List.getLast?_cons]
  rfl

theorem lastKey_cons {S : Type} (e : K × S) (es : List (K × S)) :
    lastKey (e :: es) = if es.isEmpty then e.1 else lastKey es := by
  cases es with
  | nil => rfl
  | cons d es => exact lastKey_append_cons [e] es d

theorem lastKey_concat {S : Type} (es : List (K × S)) (e : K × S) :
    lastKey (es ++ [e]) = e.1 := by
  simp [lastKey]

theorem lastKey_append_of_ne_nil {S : Type} (es : List (K × S)) {es' : List (K × S)}
    (hne : es' ≠ []) : lastKey (es ++ es') = lastKey es' := by
  obtain ⟨e, es', rfl⟩ := List.exists_cons_of_ne_nil hne
  exact lastKey_append_cons _ _ _

/-- The context after the last key of the node has been written to its parent, and on as long as the
node written to is the last of its own parent. -/
def Ctx.fixKeys : {l : Nat} → Ctx K V l → Slot K V (l + 1) → Ctx K V l
  | _, .top, _ => .top
  | _, .up f c, t =>
      let f' := { f with key := lastKey t.entries }
      .up f' (if f.right.isEmpty then c.fixKeys (f'.plug t) else c)

@[simp] theorem Ctx.path_fixKeys (c : Ctx K V l) (t : Slot K V (l + 1)) :
    (c.fixKeys t).path = c.path := by
  induction c with
  | top => rfl
  | up f c ih =>
      simp only [fixKeys, path]
      split
      · rw [ih]
      · rfl

@[simp] theorem Ctx.siblingAddrs_fixKeys (c : Ctx K V l) (t : Slot K V (l + 1)) :
    (c.fixKeys t).siblingAddrs = c.siblingAddrs := by
  induction c with
  | top => rfl
  | up f c ih =>
      simp only [fixKeys, siblingAddrs, Frame.siblings]
      split
      · rw [ih]
      · rfl

@[simp] theorem Ctx.before_fixKeys (c : Ctx K V l) (t : Slot K V (l + 1)) :
    (c.fixKeys t).before = c.before := by
  induction c with
  | top => rfl
  | up f c ih =>
      simp only [fixKeys, before]
      split
      · rw [ih]
      · rfl

@[simp] theorem Ctx.after_fixKeys (c : Ctx K V l) (t : Slot K V (l + 1)) :
    (c.fixKeys t).after = c.after := by
  induction c with
  | top => rfl
  | up f c ih =>
      simp only [fixKeys, after]
      split
      · rw [ih]
      · rfl

end Keys

end Memoria.Lib

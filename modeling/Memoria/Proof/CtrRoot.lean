import Memoria.CtrRoot
import Mathlib.Data.List.TakeWhile
import Mathlib.Order.Nat

namespace Memoria.CtrRoot

open Lib

/-! Properties and references of a container in every snapshot of a history. -/

namespace PackedMap

variable {K V : Type} [LinearOrder K] {map : PackedMap K V} {key : K}

theorem before_append_fromGE (map : PackedMap K V) (key : K) :
    map.before key ++ map.fromGE key = map := List.takeWhile_append_dropWhile

theorem lt_of_mem_before {e : K × V} (he : e ∈ map.before key) : e.1 < key := by
  have hlt := List.mem_takeWhile_imp he
  exact of_decide_eq_true hlt

theorem le_of_fromGE {e : K × V} {rest : PackedMap K V} (h : map.fromGE key = e :: rest) :
    key ≤ e.1 := by
  have hhead := List.head?_dropWhile_not (fun e : K × V => decide (e.1 < key)) map
  change map.dropWhile _ = _ at h
  rw [h] at hhead
  simpa using hhead

/-- The key is not among the entries from `fromGE` on, or it is that of the first of them. -/
theorem fromGE_cases (h : Sorted map) (key : K) :
    (∀ e ∈ map.fromGE key, key < e.1) ∨
      ∃ value rest, map.fromGE key = (key, value) :: rest ∧ ∀ e ∈ rest, key < e.1 := by
  have hsorted : Sorted (map.fromGE key) := by
    rw [← before_append_fromGE map key, sorted_append] at h
    exact h.2.1
  cases hfrom : map.fromGE key with
  | nil => exact .inl fun e he => absurd he List.not_mem_nil
  | cons e rest =>
      obtain ⟨key₀, value⟩ := e
      rw [hfrom] at hsorted
      obtain ⟨hlt, -⟩ := List.pairwise_cons.mp hsorted
      obtain heq | hgt := (le_of_fromGE hfrom).eq_or_lt
      · cases heq
        exact .inr ⟨value, rest, rfl, hlt⟩
      · refine .inl fun e he => ?_
        obtain rfl | he := List.mem_cons.mp he
        · exact hgt
        · exact hgt.trans (hlt e he)

structure Parts (map : PackedMap K V) (key : K) where
  front : PackedMap K V
  back : PackedMap K V
  old : Option V
  map_eq : map = front ++ (old.map (key, ·)).toList ++ back
  lt_key : ∀ e ∈ front, e.1 < key
  key_lt : ∀ e ∈ back, key < e.1
  find_eq : map.find key = old
  remove_eq : map.remove key = front ++ back
  set_eq : ∀ value, map.set key value = front ++ (key, value) :: back

theorem exists_parts (h : Sorted map) (key : K) : Nonempty (Parts map key) := by
  have hall := before_append_fromGE map key
  obtain habsent | ⟨old, rest, hfrom, hrest⟩ := fromGE_cases h key
  · refine ⟨⟨map.before key, map.fromGE key, none, ?_, fun e => lt_of_mem_before, habsent, ?_, ?_,
      fun value => ?_⟩⟩
    · rw [Option.map_none, Option.toList_none, List.append_nil, hall]
    all_goals
      -- the first entry from there on has a greater key
      simp only [find, remove, set]
      cases hfrom : map.fromGE key with
      | nil => simp_all
      | cons e rest =>
          rw [hfrom] at habsent
          have hne : e.1 ≠ key := ne_of_gt (habsent e List.mem_cons_self)
          simp_all
  · refine ⟨⟨map.before key, rest, some old, ?_, fun e => lt_of_mem_before, hrest, ?_, ?_,
      fun value => ?_⟩⟩
    · rw [Option.map_some, Option.toList_some, List.append_assoc, List.singleton_append, ← hfrom,
        hall]
    all_goals simp [find, remove, set, hfrom]

namespace Parts

variable (parts : Parts map key)
include parts

theorem sorted_remove (h : Sorted map) : Sorted (map.remove key) := by
  rw [parts.map_eq] at h
  rw [parts.remove_eq]
  exact h.sublist (List.Sublist.append (List.sublist_append_left _ _) (List.Sublist.refl _))

theorem sorted_set (h : Sorted map) (value : V) : Sorted (map.set key value) := by
  have hremove := parts.sorted_remove h
  rw [parts.remove_eq, sorted_append] at hremove
  obtain ⟨hfront, hback, hlt⟩ := hremove
  rw [parts.set_eq, sorted_append]
  refine ⟨hfront, List.pairwise_cons.mpr ⟨parts.key_lt, hback⟩, fun a ha b hb => ?_⟩
  obtain rfl | hb := List.mem_cons.mp hb
  · exact parts.lt_key a ha
  · exact hlt a ha b hb

theorem mem_iff (e : K × V) :
    e ∈ map ↔ (e.1 = key ∧ parts.old = some e.2) ∨ e ∈ parts.front ++ parts.back := by
  obtain ⟨k, v⟩ := e
  nth_rewrite 1 [parts.map_eq]
  cases parts.old with
  | none => simp
  | some old =>
      simp only [Option.map_some, Option.toList_some, List.mem_append, List.mem_singleton,
        Prod.mk.injEq, Option.some.injEq]
      constructor
      · rintro ((hfront | ⟨rfl, rfl⟩) | hback)
        exacts [.inr (.inl hfront), .inl ⟨rfl, rfl⟩, .inr (.inr hback)]
      · rintro (⟨rfl, rfl⟩ | hfront | hback)
        exacts [.inl (.inr ⟨rfl, rfl⟩), .inl (.inl hfront), .inr hback]

theorem ne_key {e : K × V} (he : e ∈ parts.front ++ parts.back) : e.1 ≠ key := by
  obtain hfront | hback := List.mem_append.mp he
  · exact ne_of_lt (parts.lt_key e hfront)
  · exact ne_of_gt (parts.key_lt e hback)

theorem mem_remove_iff (e : K × V) : e ∈ map.remove key ↔ e ∈ map ∧ e.1 ≠ key := by
  rw [parts.remove_eq, parts.mem_iff]
  constructor
  · exact fun he => ⟨.inr he, parts.ne_key he⟩
  · rintro ⟨⟨heq, -⟩ | he, hne⟩
    · exact absurd heq hne
    · exact he

theorem mem_set_iff (value : V) (e : K × V) :
    e ∈ map.set key value ↔ e = (key, value) ∨ e ∈ map ∧ e.1 ≠ key := by
  rw [← parts.mem_remove_iff, parts.remove_eq, parts.set_eq]
  simp only [List.mem_append, List.mem_cons]
  exact or_left_comm

theorem find_eq_toMap (h : Sorted map) : map.find key = toMap map key := by
  refine Option.ext fun v => ?_
  rw [h.toMap_eq_some_iff, parts.mem_iff, parts.find_eq]
  constructor
  · exact fun hold => .inl ⟨rfl, hold⟩
  · rintro (⟨-, hold⟩ | he)
    · exact hold
    · exact absurd rfl (parts.ne_key he)

end Parts

theorem find_eq (h : Sorted map) (key : K) : map.find key = toMap map key := by
  obtain ⟨parts⟩ := exists_parts h key
  exact parts.find_eq_toMap h

theorem sorted_set (h : Sorted map) (key : K) (value : V) : Sorted (map.set key value) := by
  obtain ⟨parts⟩ := exists_parts h key
  exact parts.sorted_set h value

theorem toMap_set (h : Sorted map) (key : K) (value : V) :
    toMap (map.set key value) = Function.update (toMap map) key (some value) := by
  obtain ⟨parts⟩ := exists_parts h key
  exact h.toMap_assign (parts.sorted_set h value) (parts.mem_set_iff value)

theorem sorted_remove (h : Sorted map) (key : K) : Sorted (map.remove key) := by
  obtain ⟨parts⟩ := exists_parts h key
  exact parts.sorted_remove h

theorem toMap_remove (h : Sorted map) (key : K) :
    toMap (map.remove key) = Function.update (toMap map) key none := by
  obtain ⟨parts⟩ := exists_parts h key
  exact h.toMap_remove (parts.sorted_remove h) parts.mem_remove_iff

theorem remove_of_find (h : Sorted map) (hfind : map.find key = none) : map.remove key = map := by
  obtain ⟨parts⟩ := exists_parts h key
  have hold := parts.find_eq.symm.trans hfind
  have hmap := parts.map_eq
  rw [hold, Option.map_none, Option.toList_none, List.append_nil] at hmap
  rw [parts.remove_eq, ← hmap]

def assignAll (m : K → Option V) (entries : List (K × V)) : K → Option V :=
  entries.foldl (fun m e => Function.update m e.1 (some e.2)) m

/-- Setting entries one by one gives the map with all of them assigned. -/
theorem setAll_spec {entries : List (K × V)} : ∀ {map : PackedMap K V}, Sorted map →
    Sorted (map.setAll entries) ∧ toMap (map.setAll entries) = assignAll (toMap map) entries := by
  induction entries with
  | nil => exact fun h => ⟨h, rfl⟩
  | cons e entries ih =>
      intro map h
      obtain ⟨hsorted, hmap⟩ := ih (sorted_set h e.1 e.2)
      refine ⟨hsorted, ?_⟩
      calc
        toMap (map.setAll (e :: entries))
          = assignAll (toMap (map.set e.1 e.2)) entries := hmap
        _ = assignAll (toMap map) (e :: entries) := by
          rw [toMap_set h]
          rfl

end PackedMap

@[ext]
structure View (K V R E : Type) where
  properties : K → Option V
  references : K → Option R
  newBlockSize : Nat
  level : Nat
  tree : Tree E

variable {K V R E : Type} [LinearOrder K]

def Update.edit : Update K V R → View K V R E → View K V R E
  | .setCtrProperty key value, view =>
    { view with properties := Function.update view.properties key (some value) }
  | .setCtrProperties entries, view =>
    { view with properties := PackedMap.assignAll view.properties entries }
  | .removeCtrProperty key, view =>
    { view with properties := Function.update view.properties key none }
  | .setCtrReference key value, view =>
    { view with references := Function.update view.references key (some value) }
  | .setCtrReferences entries, view =>
    { view with references := PackedMap.assignAll view.references entries }
  | .removeCtrReference key, view =>
    { view with references := Function.update view.references key none }
  | .setNewBlockSize blockSize, view => { view with newBlockSize := blockSize }
  | .createNewRootBlock, view => { view with level := view.level + 1, tree := .branch [view.tree] }
  | .removeRedundantRoot, view =>
    match view.tree with
    | .branch [child] => { view with level := view.level - 1, tree := child }
    | _ => view

def Update.collapses : Update K V R → Bool
  | .removeRedundantRoot => true
  | _ => false

def Op.edit (views : Nat → Option (View K V R E)) : Op K V R → Nat → Option (View K V R E)
  | .update s change => Function.update views s ((views s).map change.edit)
  | .commit _ => views
  | .branch parent s => Function.update views s (views parent)

namespace Node

@[simp]
theorem header_withHeader (node : Node E) (header : Header) :
    (node.withHeader header).header = header := by
  cases node <;> rfl

@[simp]
theorem isLeaf_withHeader (node : Node E) (header : Header) :
    (node.withHeader header).isLeaf = node.isLeaf := by
  cases node <;> rfl

@[simp]
theorem withHeader_header (node : Node E) : node.withHeader node.header = node := by
  cases node <;> rfl

@[simp]
theorem tree_withHeader (node : Node E) (header : Header) :
    (node.withHeader header).tree = node.tree := by
  cases node <;> simp [withHeader, tree]

def Leveled : Nat → Node E → Prop
  | 0, .leaf _ _ => True
  | level + 1, .branch _ children => ∀ child ∈ children, child.Leveled level
  | _, _ => False

@[simp]
theorem leveled_withHeader (node : Node E) (header : Header) (level : Nat) :
    (node.withHeader header).Leveled level ↔ node.Leveled level := by
  cases node <;> cases level <;> rfl

theorem Leveled.eq_zero {node : Node E} {level : Nat} (h : node.Leveled level)
    (hleaf : node.isLeaf = true) : level = 0 := by
  cases node with
  | branch header children => cases hleaf
  | leaf header entries =>
      cases level with
      | zero => rfl
      | succ level => exact h.elim

end Node

namespace Block

variable (block : Block K V R E)

def maker : Nat := block.node.header.snapshotId

def view : View K V R E where
  properties := toMap block.metadata.properties
  references := toMap block.metadata.references
  newBlockSize := block.metadata.memoryBlockSize
  level := block.level
  tree := block.node.tree

structure Valid : Prop where
  properties : Sorted block.metadata.properties
  references : Sorted block.metadata.references
  leveled : block.node.Leveled block.level

end Block

namespace Store

def views (store : Store K V R E) (s : Nat) : Option (View K V R E) :=
  (store.rootBlock s).map Block.view

structure Inv (store : Store K V R E) : Prop where
  rooted : ∀ s, store.active s = true → (store.roots s).isSome
  readable : ∀ s p, store.roots s = some p → (store.blocks.read p).isSome
  valid : ∀ p block, store.blocks.read p = some block → block.Valid
  made : ∀ p block, store.blocks.read p = some block → (store.roots block.maker).isSome
  own : ∀ s p block, store.roots s = some p → store.blocks.read p = some block →
    store.active block.maker = true → s = block.maker

def Owned (store : Store K V R E) (s : Nat) : Prop :=
  ∃ block, store.rootBlock s = some block ∧ block.maker = s

instance (store : Store K V R E) (s : Nat) : Decidable (store.Owned s) :=
  decidableExistsSome _

structure Edits (store after : Store K V R E) (s : Nat) (edit : View K V R E → View K V R E) :
    Prop where
  inv : after.Inv
  active : after.active = store.active
  views : after.views = Function.update store.views s ((store.views s).map edit)

variable {store after last : Store K V R E} {s : Nat} {edit edit' : View K V R E → View K V R E}

theorem Edits.refl (h : store.Inv) : Edits store store s id := by
  refine ⟨h, rfl, ?_⟩
  rw [Option.map_id, id, Function.update_eq_self]

theorem Edits.trans (h : Edits store after s edit) (h' : Edits after last s edit') :
    Edits store last s (edit' ∘ edit) := by
  refine ⟨h'.inv, h'.active.trans h.active, ?_⟩
  rw [h'.views, h.views, Function.update_idem, Function.update_self, Option.map_map]

omit [LinearOrder K] in
theorem rootBlock_eq_some {block : Block K V R E} :
    store.rootBlock s = some block ↔
      ∃ p, store.roots s = some p ∧ store.blocks.read p = some block := by
  exact Option.bind_eq_some_iff

/-- A new block of its own for a snapshot. -/
theorem newRoot_edits {block new : Block K V R E} (h : store.Inv)
    (hroot : store.rootBlock s = some block) (hnew : new.Valid) (hmaker : new.maker = s)
    (hview : new.view = edit block.view) :
    Edits store (store.newRoot s new) s edit ∧ (store.newRoot s new).Owned s := by
  have hself : (store.newRoot s new).rootBlock s = some new := by
    simp [rootBlock, newRoot]
  have hroots : ∀ q, q ≠ s → (store.newRoot s new).roots q = store.roots q :=
    fun q hq => Function.update_of_ne hq _ _
  have hblocks : ∀ p b, (store.newRoot s new).blocks.read p = some b →
      b = new ∨ store.blocks.read p = some b := by
    intro p b hb
    change (store.blocks.alloc new).read p = some b at hb
    rw [Heap.read_alloc] at hb
    split_ifs at hb
    · exact .inl (Option.some.inj hb).symm
    · exact .inr hb
  refine ⟨⟨⟨?_, ?_, ?_, ?_, ?_⟩, rfl, ?_⟩, new, hself, hmaker⟩
  · intro q hq
    by_cases hqs : q = s
    · rw [hqs]
      exact Option.isSome_of_eq_some (Function.update_self s _ store.roots)
    · rw [hroots q hqs]
      exact h.rooted q hq
  · intro q p hp
    by_cases hq : q = s
    · subst hq
      cases (Function.update_self q _ store.roots).symm.trans hp
      exact Option.isSome_of_eq_some (Heap.read_alloc_self _ _)
    · rw [hroots q hq] at hp
      obtain ⟨b, hb⟩ := Option.isSome_iff_exists.mp (h.readable q p hp)
      exact Option.isSome_of_eq_some (Heap.read_alloc_of_read hb)
  · intro p b hb
    obtain rfl | hb := hblocks p b hb
    · exact hnew
    · exact h.valid p b hb
  · intro p b hb
    by_cases hq : b.maker = s
    · rw [hq]
      exact Option.isSome_of_eq_some (Function.update_self s _ store.roots)
    · obtain rfl | hb := hblocks p b hb
      · exact absurd hmaker hq
      · rw [hroots _ hq]
        exact h.made p b hb
  · intro q p b hp hb hactive
    by_cases hq : q = s
    · subst hq
      obtain ⟨p', hp', hb'⟩ := rootBlock_eq_some.mp hself
      cases hp'.symm.trans hp
      cases hb'.symm.trans hb
      exact hmaker.symm
    · rw [hroots q hq] at hp
      obtain ⟨b', hb'⟩ := Option.isSome_iff_exists.mp (h.readable q p hp)
      cases (Heap.read_alloc_of_read (a := new) hb').symm.trans hb
      exact h.own q p b hp hb' hactive
  · funext q
    by_cases hq : q = s
    · subst hq
      rw [Function.update_self, views, views, hself, hroot, Option.map_some, Option.map_some,
        Option.map_some, hview]
    · rw [Function.update_of_ne hq, views, views, rootBlock, rootBlock, hroots q hq]
      cases hp : store.roots q with
      | none => rfl
      | some p =>
          obtain ⟨b, hb⟩ := Option.isSome_iff_exists.mp (h.readable q p hp)
          rw [Option.bind_some, Option.bind_some, hb]
          exact congrArg (Option.map Block.view) (Heap.read_alloc_of_read hb)

/-- A write to a block that is the snapshot's own. -/
theorem modify_edits {p : Nat} {block new : Block K V R E} (h : store.Inv)
    (hactive : store.active s = true) (hp : store.roots s = some p)
    (hread : store.blocks.read p = some block) (howned : block.maker = s) (hnew : new.Valid)
    (hmaker : new.maker = s) (hview : new.view = edit block.view) :
    Edits store { store with blocks := store.blocks.modify p fun _ => new } s edit := by
  have hread' : (store.blocks.modify p fun _ => new).read p = some new := by
    rw [Heap.read_modify_self, hread, Option.map_some]
  have hother : ∀ q, q ≠ s → store.roots q ≠ some p := by
    intro q hq heq
    have hmine := h.own q p block heq hread (by rw [howned, hactive])
    exact hq (hmine.trans howned)
  refine ⟨⟨h.rooted, ?_, ?_, ?_, ?_⟩, rfl, ?_⟩
  · intro q p' hp'
    by_cases heq : p' = p
    · rw [heq]
      exact Option.isSome_of_eq_some hread'
    · rw [Heap.read_modify_of_ne heq]
      exact h.readable q p' hp'
  · intro p' b hb
    by_cases heq : p' = p
    · subst heq
      cases hread'.symm.trans hb
      exact hnew
    · rw [Heap.read_modify_of_ne heq] at hb
      exact h.valid p' b hb
  · intro p' b hb
    by_cases heq : p' = p
    · subst heq
      cases hread'.symm.trans hb
      rw [hmaker]
      exact Option.isSome_of_eq_some hp
    · rw [Heap.read_modify_of_ne heq] at hb
      exact h.made p' b hb
  · intro q p' b hp' hb hmade
    by_cases heq : p' = p
    · subst heq
      cases hread'.symm.trans hb
      by_contra hq
      exact hother q (fun hqs => hq (hqs.trans hmaker.symm)) hp'
    · rw [Heap.read_modify_of_ne heq] at hb
      exact h.own q p' b hp' hb hmade
  · funext q
    by_cases hq : q = s
    · subst hq
      simp only [Function.update_self, views, rootBlock, hp, Option.bind_some, hread, hread',
        Option.map_some, hview]
    · simp only [Function.update_of_ne hq, views, rootBlock]
      cases hp' : store.roots q with
      | none => rfl
      | some p' =>
          have hne : p' ≠ p := by
            rintro rfl
            exact hother q hq hp'
          simp only [Option.bind_some, Heap.read_modify_of_ne hne]

variable {profile : Profile} {sizes : Sizes K V R E}

omit [LinearOrder K] in
theorem cowClonePath_eq (h : store.Owned s) : cowClonePath profile store s = some store := by
  obtain ⟨block, hroot, hmaker⟩ := h
  simp only [cowClonePath, hroot, Option.bind_eq_bind, Option.bind_some]
  cases profile with
  | noCow => rfl
  | cow => exact if_pos hmaker

theorem cowClonePath_edits (h : store.Inv) (hclone : cowClonePath profile store s = some after) :
    Edits store after s id ∧ (profile = .cow → after.Owned s) ∧ (profile = .noCow → after = store) ∧
      ∀ p block, store.blocks.read p = some block → after.blocks.read p = some block := by
  simp only [cowClonePath, Option.bind_eq_bind, Option.bind_eq_some_iff] at hclone
  obtain ⟨block, hroot, hclone⟩ := hclone
  cases profile with
  | noCow =>
      cases hclone
      exact ⟨.refl h, by simp, fun _ => rfl, fun _ _ hread => hread⟩
  | cow =>
      simp only at hclone
      split_ifs at hclone with hmaker
      · cases hclone
        exact ⟨.refl h, fun _ => ⟨block, hroot, hmaker⟩, by simp, fun _ _ hread => hread⟩
      · cases hclone
        obtain ⟨p, hp, hread⟩ := rootBlock_eq_some.mp hroot
        have hvalid := h.valid p block hread
        have hnew : ∀ new, new.Valid → new.maker = s → new.view = block.view →
            Edits store (store.newRoot s new) s id ∧ (store.newRoot s new).Owned s :=
          fun new hvalid hmade hview => newRoot_edits h hroot hvalid hmade hview
        obtain ⟨hedits, howned⟩ := hnew
          { block with node := block.node.withHeader { block.node.header with snapshotId := s } }
          ⟨hvalid.properties, hvalid.references, (Node.leveled_withHeader _ _ _).mpr hvalid.leveled⟩
          (by simp [Block.maker]) (by simp [Block.view])
        exact ⟨hedits, fun _ => howned, by simp, fun _ _ => Heap.read_alloc_of_read⟩

theorem resizeBlock_edits {newSize : Nat} (h : store.Inv)
    (hresize : resizeBlock profile sizes store s newSize = some after) :
    Edits store after s id ∧ after.Owned s := by
  simp only [resizeBlock, Option.bind_eq_bind, Option.bind_eq_some_iff] at hresize
  obtain ⟨block, hroot, hresize⟩ := hresize
  obtain ⟨p, hp, hread⟩ := rootBlock_eq_some.mp hroot
  have hvalid := h.valid p block hread
  cases profile with
  | noCow =>
      simp only [Option.ite_none_right_eq_some, Option.some.injEq] at hresize
      obtain ⟨-, rfl⟩ := hresize
      apply newRoot_edits h hroot
      · exact ⟨hvalid.properties, hvalid.references,
          (Node.leveled_withHeader _ _ _).mpr hvalid.leveled⟩
      · simp [Block.maker]
      · simp [Block.view]
  | cow =>
      simp only [Option.ite_none_right_eq_some, Option.some.injEq] at hresize
      obtain ⟨⟨hleaf, -⟩, rfl⟩ := hresize
      -- a leaf is at level zero, which is the level the copy gets
      have hlevel := hvalid.leveled.eq_zero hleaf
      apply newRoot_edits h hroot
      · refine ⟨hvalid.properties, hvalid.references, ?_⟩
        have hleveled := hvalid.leveled
        rw [hlevel] at hleveled
        exact (Node.leveled_withHeader _ _ _).mpr hleveled
      · simp [Block.maker]
      · simp [Block.view, hlevel]

theorem upsizeNode_edits {upsize : Nat} (h : store.Inv)
    (hupsize : upsizeNode profile sizes store s upsize = some after) :
    Edits store after s id ∧ (after = store ∨ after.Owned s) ∧
      ∀ block, store.rootBlock s = some block → sizes.freeSpace block < upsize → after.Owned s := by
  simp only [upsizeNode, Option.bind_eq_bind, Option.bind_eq_some_iff] at hupsize
  obtain ⟨block, hroot, hupsize⟩ := hupsize
  split_ifs at hupsize with hfree
  · obtain ⟨hedits, howned⟩ := resizeBlock_edits h hupsize
    exact ⟨hedits, .inr howned, fun _ _ _ => howned⟩
  · cases hupsize
    refine ⟨.refl h, .inl rfl, fun block' hroot' hfree' => ?_⟩
    cases hroot.symm.trans hroot'
    exact absurd hfree' hfree

theorem downsizeNode_edits (h : store.Inv)
    (hdownsize : downsizeNode profile sizes store s = some after) : Edits store after s id := by
  simp only [downsizeNode, Option.bind_eq_bind, Option.bind_eq_some_iff] at hdownsize
  obtain ⟨block, hroot, hdownsize⟩ := hdownsize
  split_ifs at hdownsize
  · exact (resizeBlock_edits h hdownsize).1
  · cases hdownsize
    exact .refl h

variable {write : Metadata K V R → Metadata K V R}

def Writes (write : Metadata K V R → Metadata K V R) (edit : View K V R E → View K V R E) : Prop :=
  ∀ block : Block K V R E, block.Valid →
    ({ block with metadata := write block.metadata } : Block K V R E).Valid ∧
      ({ block with metadata := write block.metadata } : Block K V R E).view = edit block.view

theorem writeMap_edits {p : Nat} (h : store.Inv) (hactive : store.active s = true)
    (howned : store.Owned s) (hp : store.roots s = some p) (hwrite : Writes write edit)
    (hmap : writeMap sizes store p write = some after) : Edits store after s edit := by
  obtain ⟨block, hroot, hmaker⟩ := howned
  obtain ⟨p', hp', hread⟩ := rootBlock_eq_some.mp hroot
  cases hp'.symm.trans hp
  simp only [writeMap, hread, Option.bind_eq_bind, Option.bind_some, Option.ite_none_right_eq_some,
    Option.some.injEq] at hmap
  obtain ⟨-, rfl⟩ := hmap
  obtain ⟨hvalid, hview⟩ := hwrite block (h.valid p block hread)
  exact modify_edits h hactive hp hread hmaker hvalid hmaker hview

/-- The root can get another size: the copy-on-write profile resizes leaves only. -/
def Resizable (profile : Profile) (block : Block K V R E) : Prop :=
  profile = .noCow ∨ block.node.isLeaf = true

instance (profile : Profile) (block : Block K V R E) : Decidable (Resizable profile block) :=
  inferInstanceAs (Decidable (_ ∨ _))

def SetOk (profile : Profile) (store : Store K V R E) (s : Nat)
    (upsize freeSpaceUp : Block K V R E → Nat) : Prop :=
  ∃ block, store.rootBlock s = some block ∧
    if freeSpaceUp block < upsize block then Resizable profile block else block.maker = s

instance (profile : Profile) (store : Store K V R E) (s : Nat)
    (upsize freeSpaceUp : Block K V R E → Nat) :
    Decidable (SetOk profile store s upsize freeSpaceUp) :=
  decidableExistsSome _

theorem setEntries_edits {upsize freeSpaceUp : Block K V R E → Nat} (h : store.Inv)
    (hactive : store.active s = true) (hfree : ∀ block, sizes.freeSpace block ≤ freeSpaceUp block)
    (hok : SetOk profile store s upsize freeSpaceUp) (hwrite : Writes write edit)
    (hset : setEntries profile sizes store s upsize freeSpaceUp write = some after) :
    Edits store after s edit := by
  simp only [setEntries, Option.bind_eq_bind, Option.bind_eq_some_iff] at hset
  obtain ⟨p, hp, block, hread, cloned, hclone, hset⟩ := hset
  have hroot : store.rootBlock s = some block := rootBlock_eq_some.mpr ⟨p, hp, hread⟩
  obtain ⟨block', hroot', hok⟩ := hok
  cases hroot.symm.trans hroot'
  obtain ⟨hcloned, hcow, hnoCow, -⟩ := cowClonePath_edits h hclone
  split_ifs at hset with hgrow
  · simp only [Option.bind_eq_some_iff] at hset
    obtain ⟨grown, hupsize, p', hp', hmap⟩ := hset
    obtain ⟨hgrown, hsame, hresized⟩ := upsizeNode_edits hcloned.inv hupsize
    have howned : grown.Owned s := by
      cases profile with
      | cow =>
          obtain rfl | howned := hsame
          · exact hcow rfl
          · exact howned
      | noCow =>
          -- nothing was cloned, and there is less free space than in the map's reach
          cases hnoCow rfl
          exact hresized block hroot (Nat.lt_of_le_of_lt (hfree block) hgrow)
    have hactive' : grown.active s = true := by rw [hgrown.active, hcloned.active, hactive]
    exact (hcloned.trans hgrown).trans
      (writeMap_edits hgrown.inv hactive' howned hp' hwrite hmap)
  · have howned : store.Owned s := ⟨block, hroot, by rwa [if_neg hgrow] at hok⟩
    cases (cowClonePath_eq howned).symm.trans hclone
    exact writeMap_edits h hactive howned hp hwrite hset

/-- The root is the snapshot's own, or what is removed is not there; and the block can get another
size or is not larger than the one it would get. -/
def RemoveOk (profile : Profile) (store : Store K V R E) (s : Nat)
    (absent : Metadata K V R → Prop) : Prop :=
  ∃ block, store.rootBlock s = some block ∧ (block.maker = s ∨ absent block.metadata) ∧
    (8192 < block.node.header.memoryBlockSize → Resizable profile block)

instance (profile : Profile) (store : Store K V R E) (s : Nat) (absent : Metadata K V R → Prop)
    [DecidablePred absent] : Decidable (RemoveOk profile store s absent) :=
  decidableExistsSome _

omit [LinearOrder K] in
theorem writeMap_eq_self {p : Nat} {block : Block K V R E} (hread : store.blocks.read p = some block)
    (hwrite : write block.metadata = block.metadata)
    (hmap : writeMap sizes store p write = some after) : after = store := by
  simp only [writeMap, hread, Option.bind_eq_bind, Option.bind_some, Option.ite_none_right_eq_some,
    Option.some.injEq, hwrite] at hmap
  obtain ⟨-, rfl⟩ := hmap
  have hheap : (store.blocks.modify p fun _ => block) = store.blocks := by
    refine Heap.ext_read rfl fun q => ?_
    rw [Heap.read_modify]
    split_ifs with heq
    · rw [heq, hread, Option.map_some]
    · rfl
  rw [hheap]

theorem removeEntry_edits {absent : Metadata K V R → Prop} (h : store.Inv)
    (hactive : store.active s = true) (hok : RemoveOk profile store s absent)
    (habsent : ∀ block : Block K V R E, block.Valid → absent block.metadata →
      write block.metadata = block.metadata)
    (hwrite : Writes write edit)
    (hremove : removeEntry profile sizes store s write = some after) :
    Edits store after s edit := by
  simp only [removeEntry, Option.bind_eq_bind, Option.bind_eq_some_iff] at hremove
  obtain ⟨p, hp, cloned, hclone, written, hmap, hdownsize⟩ := hremove
  obtain ⟨block, hroot, hok, -⟩ := hok
  obtain hmaker | hsame := hok
  · have howned : store.Owned s := ⟨block, hroot, hmaker⟩
    cases (cowClonePath_eq howned).symm.trans hclone
    have hwritten := writeMap_edits h hactive howned hp hwrite hmap
    exact hwritten.trans (downsizeNode_edits hwritten.inv hdownsize)
  · obtain ⟨p', hp', hread⟩ := rootBlock_eq_some.mp hroot
    cases hp'.symm.trans hp
    have hsame := habsent block (h.valid p block hread) hsame
    obtain ⟨hcloned, -, -, hkept⟩ := cowClonePath_edits h hclone
    cases writeMap_eq_self (hkept p block hread) hsame hmap
    have hdown := hcloned.trans (downsizeNode_edits hcloned.inv hdownsize)
    refine ⟨hdown.inv, hdown.active, ?_⟩
    rw [hdown.views, views, hroot]
    obtain ⟨-, hview⟩ := hwrite block (h.valid p block hread)
    rw [hsame] at hview
    exact congrArg (fun view => Function.update store.views s (some view)) hview

theorem setNewBlockSize_edits {blockSize : Nat} (h : store.Inv) (hactive : store.active s = true)
    (hok : profile = .cow ∨ store.Owned s)
    (hset : setNewBlockSize profile store s blockSize = some after) :
    Edits store after s (Update.edit (.setNewBlockSize blockSize : Update K V R)) := by
  simp only [setNewBlockSize, Option.bind_eq_bind, Option.bind_eq_some_iff, Option.pure_def,
    Option.some.injEq] at hset
  obtain ⟨cloned, hclone, p, hp, block, hread, rfl⟩ := hset
  obtain ⟨hcloned, hcow, -, -⟩ := cowClonePath_edits h hclone
  have howned : cloned.Owned s := by
    obtain rfl | howned := hok
    · exact hcow rfl
    · cases (cowClonePath_eq howned).symm.trans hclone
      exact howned
  obtain ⟨block', hroot', hmaker⟩ := howned
  cases (rootBlock_eq_some.mpr ⟨p, hp, hread⟩).symm.trans hroot'
  have hvalid := hcloned.inv.valid p block hread
  rw [← Function.comp_id (Update.edit _)]
  apply hcloned.trans
  apply modify_edits hcloned.inv (by rw [hcloned.active, hactive]) hp hread hmaker
  · exact ⟨hvalid.properties, hvalid.references, hvalid.leveled⟩
  · exact hmaker
  · rfl

theorem createNewRootBlock_edits (h : store.Inv)
    (hgrow : createNewRootBlock profile sizes store s = some after) :
    Edits store after s (Update.edit (.createNewRootBlock : Update K V R)) := by
  simp only [createNewRootBlock, Option.bind_eq_bind, Option.bind_eq_some_iff] at hgrow
  obtain ⟨block, hroot, hgrow⟩ := hgrow
  cases profile with
  | cow => cases hgrow
  | noCow =>
  simp only [Option.ite_none_right_eq_some, Option.some.injEq] at hgrow
  obtain ⟨-, rfl⟩ := hgrow
  obtain ⟨p, hp, hread⟩ := rootBlock_eq_some.mp hroot
  have hvalid := h.valid p block hread
  apply And.left
  apply newRoot_edits h hroot
  · refine ⟨hvalid.properties, hvalid.references, ?_⟩
    intro child hchild
    cases List.mem_singleton.mp hchild
    exact (Node.leveled_withHeader _ _ _).mpr hvalid.leveled
  · rfl
  · simp [Block.view, Update.edit, Node.tree]

theorem removeRedundantRoot_edits (h : store.Inv)
    (hcollapse : removeRedundantRoot profile sizes store s = some after) :
    Edits store after s (Update.edit (.removeRedundantRoot : Update K V R)) := by
  simp only [removeRedundantRoot, Option.bind_eq_bind, Option.bind_eq_some_iff] at hcollapse
  obtain ⟨block, hroot, hcollapse⟩ := hcollapse
  obtain ⟨p, hp, hread⟩ := rootBlock_eq_some.mp hroot
  have hvalid := h.valid p block hread
  split at hcollapse
  · next header child hnode =>
      simp only [Option.ite_none_right_eq_some, Option.some.injEq] at hcollapse
      obtain ⟨-, rfl⟩ := hcollapse
      apply And.left
      apply newRoot_edits h hroot
      · refine ⟨hvalid.properties, hvalid.references, ?_⟩
        have hleveled := hvalid.leveled
        rw [hnode] at hleveled
        cases hlevel : block.level with
        | zero =>
            rw [hlevel] at hleveled
            exact hleveled.elim
        | succ level =>
            rw [hlevel] at hleveled
            exact (Node.leveled_withHeader _ _ _).mpr (hleveled child List.mem_cons_self)
      · simp [Block.maker]
      · simp [Block.view, Update.edit, hnode, Node.tree]
  · cases hcollapse

section Outcomes

variable {block : Block K V R E}

variable (profile) in
omit [LinearOrder K] in
/-- The clone of a root is the root, but for its maker. -/
theorem exists_cowClonePath (hroot : store.rootBlock s = some block) :
    ∃ cloned header, cowClonePath profile store s = some cloned ∧
      header.memoryBlockSize = block.node.header.memoryBlockSize ∧
      cloned.rootBlock s = some { block with node := block.node.withHeader header } ∧
      ∀ p old, store.blocks.read p = some old → cloned.blocks.read p = some old := by
  by_cases hclone : profile = .cow ∧ block.node.header.snapshotId ≠ s
  · obtain ⟨rfl, hmaker⟩ := hclone
    refine ⟨store.newRoot s { block with
        node := block.node.withHeader { block.node.header with snapshotId := s } },
      { block.node.header with snapshotId := s }, ?_, rfl, ?_, ?_⟩
    · simp only [cowClonePath, hroot, Option.bind_eq_bind, Option.bind_some, if_neg hmaker]
      rfl
    · simp [rootBlock, newRoot]
    · exact fun _ _ => Heap.read_alloc_of_read
  · refine ⟨store, block.node.header, ?_, rfl, by simpa using hroot, fun _ _ hread => hread⟩
    simp only [cowClonePath, hroot, Option.bind_eq_bind, Option.bind_some]
    cases profile with
    | noCow => rfl
    | cow => exact if_pos (by simpa using hclone)

variable (hfits : ∀ block, sizes.fits block = true)

include hfits

omit [LinearOrder K] in
theorem exists_resizeBlock (newSize : Nat) (hroot : store.rootBlock s = some block)
    (hresizable : Resizable profile block) :
    ∃ resized, resizeBlock profile sizes store s newSize = some resized ∧
      (resized.rootBlock s).isSome := by
  simp only [resizeBlock, hroot, Option.bind_eq_bind, Option.bind_some, hfits, and_true, if_true]
  cases profile with
  | noCow => exact ⟨_, rfl, by simp [rootBlock, newRoot]⟩
  | cow =>
      have hleaf := hresizable.resolve_left (by simp)
      exact ⟨_, if_pos hleaf, by simp [rootBlock, newRoot]⟩

omit [LinearOrder K] in
theorem exists_upsizeNode (upsize : Nat) (hroot : store.rootBlock s = some block)
    (hresizable : Resizable profile block) :
    ∃ grown, upsizeNode profile sizes store s upsize = some grown ∧
      (grown.rootBlock s).isSome := by
  simp only [upsizeNode, hroot, Option.bind_eq_bind, Option.bind_some]
  split
  · exact exists_resizeBlock hfits _ hroot hresizable
  · exact ⟨store, rfl, Option.isSome_of_eq_some hroot⟩

omit [LinearOrder K] in
theorem exists_downsizeNode (hroot : store.rootBlock s = some block)
    (hresizable : 8192 < block.node.header.memoryBlockSize → Resizable profile block) :
    ∃ shrunk, downsizeNode profile sizes store s = some shrunk := by
  simp only [downsizeNode, hroot, Option.bind_eq_bind, Option.bind_some]
  split
  · next hlarge =>
      obtain ⟨shrunk, hshrunk, -⟩ := exists_resizeBlock hfits _ hroot (hresizable hlarge)
      exact ⟨shrunk, hshrunk⟩
  · exact ⟨store, rfl⟩

variable (write) in
omit [LinearOrder K] in
/-- A write to a map leaves the nodes as they are. -/
theorem exists_writeMap {p : Nat} (hread : store.blocks.read p = some block) :
    ∃ written, writeMap sizes store p write = some written ∧
      ∀ s root, store.rootBlock s = some root →
        ∃ root', written.rootBlock s = some root' ∧ root'.node = root.node := by
  simp only [writeMap, hread, Option.bind_eq_bind, Option.bind_some, hfits, if_true]
  refine ⟨_, rfl, fun s root hroot => ?_⟩
  obtain ⟨q, hq, hread'⟩ := rootBlock_eq_some.mp hroot
  by_cases heq : q = p
  · subst heq
    cases hread.symm.trans hread'
    refine ⟨{ block with metadata := write block.metadata },
      rootBlock_eq_some.mpr ⟨q, hq, ?_⟩, rfl⟩
    change (store.blocks.modify q _).read q = _
    rw [Heap.read_modify_self, hread, Option.map_some]
  · exact ⟨root, rootBlock_eq_some.mpr ⟨q, hq, (Heap.read_modify_of_ne heq _).trans hread'⟩, rfl⟩

omit [LinearOrder K] in
theorem exists_setEntries {upsize freeSpaceUp : Block K V R E → Nat}
    (hok : SetOk profile store s upsize freeSpaceUp) :
    ∃ after, setEntries profile sizes store s upsize freeSpaceUp write = some after := by
  obtain ⟨block, hroot, hok⟩ := hok
  obtain ⟨p, hp, hread⟩ := rootBlock_eq_some.mp hroot
  obtain ⟨cloned, header, hclone, -, hroot', hkept⟩ := exists_cowClonePath profile hroot
  simp only [setEntries, hp, hread, hclone, Option.bind_eq_bind, Option.bind_some]
  split
  · next hgrow =>
      rw [if_pos hgrow] at hok
      have hresizable : Resizable profile { block with node := block.node.withHeader header } := by
        simpa [Resizable] using hok
      obtain ⟨grown, hupsize, hsome⟩ := exists_upsizeNode hfits (upsize block) hroot' hresizable
      obtain ⟨root, hroot'⟩ := Option.isSome_iff_exists.mp hsome
      obtain ⟨p', hp', hread'⟩ := rootBlock_eq_some.mp hroot'
      obtain ⟨written, hwritten, -⟩ := exists_writeMap write hfits hread'
      exact ⟨written, by rw [hupsize, Option.bind_some, hp', Option.bind_some, hwritten]⟩
  · obtain ⟨written, hwritten, -⟩ := exists_writeMap write hfits (hkept p block hread)
    exact ⟨written, hwritten⟩

omit [LinearOrder K] in
theorem exists_removeEntry {absent : Metadata K V R → Prop}
    (hok : RemoveOk profile store s absent) :
    ∃ after, removeEntry profile sizes store s write = some after := by
  obtain ⟨block, hroot, -, hresizable⟩ := hok
  obtain ⟨p, hp, hread⟩ := rootBlock_eq_some.mp hroot
  obtain ⟨cloned, header, hclone, hsize, hroot', hkept⟩ :=
    exists_cowClonePath profile hroot
  obtain ⟨written, hwritten, hnodes⟩ := exists_writeMap write hfits (hkept p block hread)
  obtain ⟨root, hroot', hnode⟩ := hnodes s _ hroot'
  have hshrinks : 8192 < root.node.header.memoryBlockSize → Resizable profile root := by
    simpa [Resizable, hnode, hsize] using hresizable
  obtain ⟨shrunk, hshrunk⟩ := exists_downsizeNode hfits hroot' hshrinks
  refine ⟨shrunk, ?_⟩
  simp only [removeEntry, hp, hclone, hwritten, hshrunk, Option.bind_eq_bind, Option.bind_some]

end Outcomes

end Store

section Steps

variable (profile : Profile) (sizes : Sizes K V R E)

def UpdateOk (store : Store K V R E) (s : Nat) : Update K V R → Prop
  | .setCtrProperty key value =>
    Store.SetOk profile store s (fun block => sizes.propertyUpsize block [(key, value)])
      sizes.propertiesFreeSpaceUp
  | .setCtrProperties entries =>
    Store.SetOk profile store s (fun block => sizes.propertyUpsize block entries)
      sizes.propertiesFreeSpaceUp
  | .removeCtrProperty key =>
    Store.RemoveOk profile store s fun metadata => metadata.properties.find key = none
  | .setCtrReference key value =>
    Store.SetOk profile store s (fun block => sizes.referenceUpsize block [(key, value)])
      sizes.referencesFreeSpaceUp
  | .setCtrReferences entries =>
    Store.SetOk profile store s (fun block => sizes.referenceUpsize block entries)
      sizes.referencesFreeSpaceUp
  | .removeCtrReference key =>
    Store.RemoveOk profile store s fun metadata => metadata.references.find key = none
  | .setNewBlockSize _ => profile = .cow ∨ store.Owned s
  | .createNewRootBlock => profile = .noCow
  | .removeRedundantRoot => True

def StepOk (store : Store K V R E) : Op K V R → Prop
  | .update s change => UpdateOk profile sizes store s change
  | .commit _ => True
  | .branch _ _ => True

instance [DecidableEq V] [DecidableEq R] (store : Store K V R E) :
    ∀ op, Decidable (StepOk profile sizes store op)
  | .update s change =>
      match change with
      | .setCtrProperty .. | .setCtrProperties .. | .setCtrReference .. | .setCtrReferences .. =>
          inferInstanceAs (Decidable (Store.SetOk ..))
      | .removeCtrProperty key => inferInstanceAs (Decidable (Store.RemoveOk profile store s
          fun metadata => metadata.properties.find key = none))
      | .removeCtrReference key => inferInstanceAs (Decidable (Store.RemoveOk profile store s
          fun metadata => metadata.references.find key = none))
      | .setNewBlockSize _ => inferInstanceAs (Decidable (_ ∨ _))
      | .createNewRootBlock => inferInstanceAs (Decidable (_ = _))
      | .removeRedundantRoot => inferInstanceAs (Decidable True)
  | .commit _ | .branch _ _ => inferInstanceAs (Decidable True)

def Store.Redundant (store : Store K V R E) (s : Nat) : Prop :=
  ∃ block header child, store.rootBlock s = some block ∧ block.node = .branch header [child] ∧
    (profile = .noCow ∨ child.header.snapshotId = s)

/-- What the callers see to: an update is made in an active snapshot, a snapshot branches off a
committed one, and a root is removed where it is redundant. -/
def Requested (store : Store K V R E) : Op K V R → Prop
  | .update s change =>
    store.active s = true ∧ (change.collapses = true → store.Redundant profile s)
  | .commit _ => True
  | .branch parent s =>
    store.active parent = false ∧ (store.roots parent).isSome ∧ store.roots s = none

def Goes (store : Store K V R E) (op : Op K V R) : Prop :=
  (∀ block, sizes.fits block = true) → Requested profile store op →
    ∃ after, step profile sizes store op = some after

end Steps

theorem writes_properties (write : PackedMap K V → PackedMap K V)
    (edit : (K → Option V) → K → Option V)
    (h : ∀ map, Sorted map → Sorted (write map) ∧ toMap (write map) = edit (toMap map)) :
    Store.Writes (R := R) (E := E)
      (fun metadata => { metadata with properties := write metadata.properties })
      fun view => { view with properties := edit view.properties } := by
  intro block hblock
  obtain ⟨hsorted, hmap⟩ := h _ hblock.properties
  refine ⟨⟨hsorted, hblock.references, hblock.leveled⟩, ?_⟩
  simp only [Block.view, hmap]

theorem writes_references (write : PackedMap K R → PackedMap K R)
    (edit : (K → Option R) → K → Option R)
    (h : ∀ map, Sorted map → Sorted (write map) ∧ toMap (write map) = edit (toMap map)) :
    Store.Writes (V := V) (E := E)
      (fun metadata => { metadata with references := write metadata.references })
      fun view => { view with references := edit view.references } := by
  intro block hblock
  obtain ⟨hsorted, hmap⟩ := h _ hblock.references
  refine ⟨⟨hblock.properties, hsorted, hblock.leveled⟩, ?_⟩
  simp only [Block.view, hmap]

variable {profile : Profile} {sizes : Sizes K V R E} {store after : Store K V R E}

theorem applyUpdate_edits {s : Nat} {change : Update K V R} (h : store.Inv)
    (hactive : store.active s = true) (hok : UpdateOk profile sizes store s change)
    (hupdate : applyUpdate profile sizes store s change = some after) :
    Store.Edits store after s change.edit := by
  cases change with
  | setCtrProperty key value =>
      exact Store.setEntries_edits h hactive sizes.freeSpace_le_properties hok
        (writes_properties (PackedMap.set · key value) (Function.update · key (some value))
          fun map hmap => ⟨PackedMap.sorted_set hmap key value, PackedMap.toMap_set hmap key value⟩)
        hupdate
  | setCtrProperties entries =>
      exact Store.setEntries_edits h hactive sizes.freeSpace_le_properties hok
        (writes_properties (PackedMap.setAll · entries) (PackedMap.assignAll · entries)
          fun map hmap => PackedMap.setAll_spec hmap) hupdate
  | removeCtrProperty key =>
      change Store.RemoveOk profile store s
        fun metadata => metadata.properties.find key = none at hok
      refine Store.removeEntry_edits h hactive hok (fun block hblock habsent => ?_)
        (writes_properties (PackedMap.remove · key) (Function.update · key none)
          fun map hmap => ⟨PackedMap.sorted_remove hmap key, PackedMap.toMap_remove hmap key⟩)
        hupdate
      simp only [PackedMap.remove_of_find hblock.properties habsent]
  | setCtrReference key value =>
      exact Store.setEntries_edits h hactive sizes.freeSpace_le_references hok
        (writes_references (PackedMap.set · key value) (Function.update · key (some value))
          fun map hmap => ⟨PackedMap.sorted_set hmap key value, PackedMap.toMap_set hmap key value⟩)
        hupdate
  | setCtrReferences entries =>
      exact Store.setEntries_edits h hactive sizes.freeSpace_le_references hok
        (writes_references (PackedMap.setAll · entries) (PackedMap.assignAll · entries)
          fun map hmap => PackedMap.setAll_spec hmap) hupdate
  | removeCtrReference key =>
      change Store.RemoveOk profile store s
        fun metadata => metadata.references.find key = none at hok
      refine Store.removeEntry_edits h hactive hok (fun block hblock habsent => ?_)
        (writes_references (PackedMap.remove · key) (Function.update · key none)
          fun map hmap => ⟨PackedMap.sorted_remove hmap key, PackedMap.toMap_remove hmap key⟩)
        hupdate
      simp only [PackedMap.remove_of_find hblock.references habsent]
  | setNewBlockSize blockSize => exact Store.setNewBlockSize_edits h hactive hok hupdate
  | createNewRootBlock => exact Store.createNewRootBlock_edits h hupdate
  | removeRedundantRoot => exact Store.removeRedundantRoot_edits h hupdate

theorem branch_spec {parent s : Nat} (h : store.Inv)
    (hstep : step profile sizes store (.branch parent s) = some after) :
    after.Inv ∧ after.views = Function.update store.views s (store.views parent) := by
  simp only [step, Option.ite_none_right_eq_some, Option.some.injEq] at hstep
  obtain ⟨⟨hcommitted, hparent, hnew⟩, rfl⟩ := hstep
  have hroots : ∀ q p, Function.update store.roots s (store.roots parent) q = some p →
      ∃ q', store.roots q' = some p ∧ (q' = q ∨ q = s ∧ q' = parent) := by
    intro q p hp
    by_cases hq : q = s
    · subst hq
      rw [Function.update_self] at hp
      exact ⟨parent, hp, .inr ⟨rfl, rfl⟩⟩
    · rw [Function.update_of_ne hq] at hp
      exact ⟨q, hp, .inl rfl⟩
  -- no block has the new snapshot as its maker
  have hmaker : ∀ p block, store.blocks.read p = some block → block.maker ≠ s := by
    intro p block hread heq
    have hmade := h.made p block hread
    rw [heq, hnew] at hmade
    cases hmade
  refine ⟨⟨?_, ?_, h.valid, ?_, ?_⟩, ?_⟩
  · intro q hq
    by_cases hqs : q = s
    · subst hqs
      change (Function.update store.roots q (store.roots parent) q).isSome
      rwa [Function.update_self]
    · change (Function.update store.roots s (store.roots parent) q).isSome
      change Function.update store.active s true q = true at hq
      rw [Function.update_of_ne hqs] at hq ⊢
      exact h.rooted q hq
  · intro q p hp
    obtain ⟨q', hp', -⟩ := hroots q p hp
    exact h.readable q' p hp'
  · intro p block hread
    change (Function.update store.roots s (store.roots parent) block.maker).isSome
    rw [Function.update_of_ne (hmaker p block hread)]
    exact h.made p block hread
  · intro q p block hp hread hactive
    change Function.update store.active s true block.maker = true at hactive
    rw [Function.update_of_ne (hmaker p block hread)] at hactive
    obtain ⟨q', hp', hq⟩ := hroots q p hp
    have hown := h.own q' p block hp' hread hactive
    obtain rfl | ⟨-, rfl⟩ := hq
    · exact hown
    · rw [hown, hactive] at hcommitted
      cases hcommitted
  · funext q
    by_cases hq : q = s
    · subst hq
      simp only [Store.views, Store.rootBlock, Function.update_self]
    · simp only [Store.views, Store.rootBlock, Function.update_of_ne hq]

theorem commit_spec {s : Nat} (h : store.Inv)
    (hstep : step profile sizes store (.commit s) = some after) :
    after.Inv ∧ after.views = store.views := by
  simp only [step, Option.some.injEq] at hstep
  subst hstep
  refine ⟨⟨?_, h.readable, h.valid, h.made, ?_⟩, rfl⟩
  · intro q hq
    change Function.update store.active s false q = true at hq
    by_cases hqs : q = s
    · rw [hqs, Function.update_self] at hq
      cases hq
    · rw [Function.update_of_ne hqs] at hq
      exact h.rooted q hq
  intro q p block hp hread hactive
  change Function.update store.active s false block.maker = true at hactive
  by_cases hs : block.maker = s
  · rw [hs, Function.update_self] at hactive
    cases hactive
  · rw [Function.update_of_ne hs] at hactive
    exact h.own q p block hp hread hactive

/-- A step within the condition keeps the invariant, and each snapshot shows what the same call
makes of its view. -/
theorem step_spec {op : Op K V R} (h : store.Inv) (hok : StepOk profile sizes store op)
    (hstep : step profile sizes store op = some after) :
    after.Inv ∧ after.views = op.edit store.views := by
  cases op with
  | update s change =>
      simp only [step, Option.ite_none_right_eq_some] at hstep
      obtain ⟨hactive, hupdate⟩ := hstep
      have hedits := applyUpdate_edits h hactive hok hupdate
      exact ⟨hedits.inv, hedits.views⟩
  | commit s => exact commit_spec h hstep
  | branch parent s => exact branch_spec h hstep

theorem applyUpdate_goes {s : Nat} {change : Update K V R} (h : store.Inv)
    (hactive : store.active s = true) (hfits : ∀ block, sizes.fits block = true)
    (hok : UpdateOk profile sizes store s change)
    (hcollapse : change.collapses = true → store.Redundant profile s) :
    ∃ after, applyUpdate profile sizes store s change = some after := by
  obtain ⟨p, hp⟩ := Option.isSome_iff_exists.mp (h.rooted s hactive)
  obtain ⟨block, hread⟩ := Option.isSome_iff_exists.mp (h.readable s p hp)
  have hroot : store.rootBlock s = some block := Store.rootBlock_eq_some.mpr ⟨p, hp, hread⟩
  cases change with
  | setCtrProperty key value => exact Store.exists_setEntries hfits hok
  | setCtrProperties entries => exact Store.exists_setEntries hfits hok
  | removeCtrProperty key =>
      change Store.RemoveOk profile store s
        fun metadata => metadata.properties.find key = none at hok
      exact Store.exists_removeEntry hfits hok
  | setCtrReference key value => exact Store.exists_setEntries hfits hok
  | setCtrReferences entries => exact Store.exists_setEntries hfits hok
  | removeCtrReference key =>
      change Store.RemoveOk profile store s
        fun metadata => metadata.references.find key = none at hok
      exact Store.exists_removeEntry hfits hok
  | setNewBlockSize blockSize =>
      obtain ⟨cloned, header, hclone, -, hroot', -⟩ :=
        Store.exists_cowClonePath profile hroot
      obtain ⟨p', hp', hread'⟩ := Store.rootBlock_eq_some.mp hroot'
      simp only [applyUpdate, Store.setNewBlockSize, hclone, hp', hread', Option.bind_eq_bind,
        Option.bind_some]
      exact ⟨_, rfl⟩
  | createNewRootBlock =>
      have hprofile : profile = .noCow := hok
      subst hprofile
      simp only [applyUpdate, Store.createNewRootBlock, hroot, Option.bind_eq_bind,
        Option.bind_some, hfits, if_true]
      exact ⟨_, rfl⟩
  | removeRedundantRoot =>
      obtain ⟨block, header, child, hroot, hnode, hchild⟩ := hcollapse rfl
      simp only [applyUpdate, Store.removeRedundantRoot, hroot, hnode, Option.bind_eq_bind,
        Option.bind_some, hfits, and_true, if_pos hchild]
      exact ⟨_, rfl⟩

theorem step_goes {op : Op K V R} (h : store.Inv) (hok : StepOk profile sizes store op) :
    Goes profile sizes store op := by
  intro hfits hrequested
  cases op with
  | update s change =>
      obtain ⟨hactive, hcollapse⟩ := hrequested
      obtain ⟨after, hafter⟩ := applyUpdate_goes h hactive hfits hok hcollapse
      exact ⟨after, (if_pos hactive).trans hafter⟩
  | commit s => exact ⟨_, rfl⟩
  | branch parent s => exact ⟨_, if_pos hrequested⟩

theorem create_spec {block : Block K V R E} (h : block.Valid) :
    (Store.create block).Inv ∧
      (Store.create block).views = Function.update (fun _ => none) 0 (some block.view) := by
  have hread : ∀ p b, (Store.create block).blocks.read p = some b →
      b = { block with
        node := block.node.withHeader { block.node.header with snapshotId := 0 } } := by
    intro p b hb
    change (Heap.empty.alloc _).read p = some b at hb
    rw [Heap.read_alloc] at hb
    split_ifs at hb
    · exact (Option.some.inj hb).symm
    · cases hb
  have hroots : ∀ s p, (Store.create block).roots s = some p → s = 0 ∧ p = 0 := by
    intro s p hp
    by_cases hs : s = 0
    · subst hs
      simp only [Store.create, Function.update_self, Option.some.injEq] at hp
      exact ⟨rfl, hp.symm⟩
    · simp only [Store.create, Function.update_of_ne hs] at hp
      cases hp
  refine ⟨⟨?_, ?_, ?_, ?_, ?_⟩, ?_⟩
  · intro s hs
    by_cases hzero : s = 0
    · rw [hzero]
      rfl
    · change Function.update (fun _ => false) 0 true s = true at hs
      rw [Function.update_of_ne hzero] at hs
      cases hs
  · intro s p hp
    obtain ⟨rfl, rfl⟩ := hroots s p hp
    rfl
  · intro p b hb
    cases hread p b hb
    exact ⟨h.properties, h.references, (Node.leveled_withHeader _ _ _).mpr h.leveled⟩
  · intro p b hb
    cases hread p b hb
    simp [Block.maker, Store.create]
  · intro s p b hp hb _
    cases hread p b hb
    rw [(hroots s p hp).1]
    simp [Block.maker]
  · funext s
    by_cases hs : s = 0
    · subst hs
      rw [Function.update_self]
      have hroot : (Store.create block).rootBlock 0 = some { block with
          node := block.node.withHeader { block.node.header with snapshotId := 0 } } := rfl
      rw [Store.views, hroot]
      simp [Block.view]
    · rw [Function.update_of_ne hs]
      simp [Store.views, Store.rootBlock, Store.create, hs]

structure Store.Shows (store : Store K V R E) (views : Nat → Option (View K V R E)) : Prop where
  property : ∀ s key, store.getCtrProperty s key = (views s).map fun view => view.properties key
  reference : ∀ s key, store.getCtrReference s key = (views s).map fun view => view.references key
  newBlockSize : ∀ s, store.getNewBlockSize s = (views s).map View.newBlockSize
  contents : ∀ s, store.contents s = (views s).map fun view => (view.level, view.tree)

theorem Store.Inv.shows (h : store.Inv) : store.Shows store.views := by
  have hvalid : ∀ s block, store.rootBlock s = some block → block.Valid := by
    intro s block hroot
    obtain ⟨p, -, hread⟩ := rootBlock_eq_some.mp hroot
    exact h.valid p block hread
  refine ⟨fun s key => ?_, fun s key => ?_, fun s => ?_, fun s => ?_⟩
  · unfold getCtrProperty views
    cases hroot : store.rootBlock s with
    | none => rfl
    | some block => exact congrArg some (PackedMap.find_eq (hvalid s block hroot).properties key)
  · unfold getCtrReference views
    cases hroot : store.rootBlock s with
    | none => rfl
    | some block => exact congrArg some (PackedMap.find_eq (hvalid s block hroot).references key)
  · rw [views, Option.map_map]
    rfl
  · rw [views, Option.map_map]
    rfl

/-- The views after a run are those that the same calls make. -/
theorem run_spec {ops : List (Op K V R)} (h : store.Inv)
    (hok : EveryStep (step profile sizes) (StepOk profile sizes) store ops)
    (hrun : ops.foldlM (step profile sizes) store = some after) :
    after.Inv ∧ after.views = ops.foldl Op.edit store.views := by
  induction ops generalizing store with
  | nil =>
      cases hrun
      exact ⟨h, rfl⟩
  | cons op ops ih =>
      simp only [List.foldlM_cons, Option.bind_eq_bind, Option.bind_eq_some_iff] at hrun
      obtain ⟨next, hstep, hrun⟩ := hrun
      obtain ⟨hinv, hviews⟩ := step_spec h hok.1 hstep
      rw [List.foldl_cons, ← hviews]
      exact ih hinv (hok.2 next hstep) hrun

def smallSizes : Sizes Nat Nat Nat Nat :=
  let used (block : Block Nat Nat Nat Nat) :=
    16 * (block.metadata.properties.length + block.metadata.references.length)
  let free (block : Block Nat Nat Nat Nat) := block.node.header.memoryBlockSize - used block
  { propertyUpsize := fun _ entries => 16 * entries.length
    referenceUpsize := fun _ entries => 16 * entries.length
    propertiesFreeSpaceUp := free
    referencesFreeSpaceUp := free
    freeSpace := free
    fits := fun block => used block ≤ block.node.header.memoryBlockSize
    freeSpace_le_properties := fun _ => Nat.le_refl _
    freeSpace_le_references := fun _ => Nat.le_refl _ }

def smallRoot : Block Nat Nat Nat Nat where
  node := .leaf ⟨0, 256⟩ [7]
  level := 0
  metadata := ⟨4096, [], []⟩

/-- The second snapshot gets a root of its own before it sets a property; then sixteen more, for
which its root has to grow. The third snapshot removes one of them. -/
def ownRootFirst : List (Op Nat Nat Nat) :=
  [.update 0 (.setCtrProperty 1 10), .commit 0, .branch 0 1, .update 1 (.setNewBlockSize 8192),
    .update 1 (.setCtrProperty 1 20),
    .update 1 (.setCtrProperties ((List.range 16).map fun i => (i + 2, i))), .commit 1, .branch 1 2,
    .update 2 (.removeCtrProperty 40), .update 2 (.removeCtrProperty 5),
    .update 2 (.setCtrReference 3 7), .commit 2]

def sharedRoot : List (Op Nat Nat Nat) :=
  [.update 0 (.setCtrProperty 1 10), .commit 0, .branch 0 1, .update 1 (.setCtrProperty 1 20)]

end Memoria.CtrRoot

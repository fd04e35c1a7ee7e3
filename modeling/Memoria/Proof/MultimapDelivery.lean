import Mathlib.Algebra.Order.BigOperators.Group.List
import Memoria.Proof.MultimapEntries

/-!
# What the entries scanner delivers

The scanner takes the leaves one by one, with one entry open between two of them. A leaf delivers
its keys where all runs of keys without values are single keys; the number of the entries that begin
says that it does nowhere else.
-/

namespace Memoria.Multimap

open Lib Run RleSeq

variable {K V : Type}

def gather : Option (K × List V) → List (Item K V) → List (K × List V)
  | entry, [] => entry.toList
  | entry, .value v :: items => gather (entry.map fun (k, vs) => (k, vs ++ [v])) items
  | entry, .key k :: items => entry.toList ++ gather (some (k, [])) items

def extend (entry : Option (K × List V)) (values : List V) : Option (K × List V) :=
  entry.map fun (k, vs) => (k, vs ++ values)

theorem gather_values (entry : Option (K × List V)) (values : List V) (items : List (Item K V)) :
    gather entry (values.map .value ++ items) = gather (extend entry values) items := by
  induction values generalizing entry with
  | nil =>
      have hsame : extend entry [] = entry := by
        cases entry with
        | none => rfl
        | some entry => exact congrArg (fun vs => some (entry.1, vs)) (List.append_nil entry.2)
      rw [hsame]
      rfl
  | cons v values ih =>
      rw [List.map_cons, List.cons_append, gather, ih]
      congr 1
      cases entry with
      | none => rfl
      | some entry =>
          simp only [extend, Option.map_some, List.append_assoc, List.singleton_append]

theorem gather_keys (entry : Option (K × List V)) (ks : List K) (k : K)
    (items : List (Item K V)) :
    gather entry (ks.map .key ++ .key k :: items) =
      entry.toList ++ (ks.map (·, []) ++ gather (some (k, [])) items) := by
  induction ks generalizing entry with
  | nil => rfl
  | cons k' ks ih => rw [List.map_cons, List.cons_append, gather, ih]; rfl

def groupEntries : Group K V → List (K × List V)
  | (ks, k, vs) => ks.map (·, []) ++ [(k, vs)]

def wholeEntries (groups : List (Group K V)) (ks : List K) : List (K × List V) :=
  groups.flatMap groupEntries ++ ks.map (·, [])

theorem gather_group (entry : Option (K × List V)) (ks : List K) (k : K) (vs : List V)
    (items : List (Item K V)) :
    gather entry (groupItems (ks, k, vs) ++ items) =
      entry.toList ++ (ks.map (·, []) ++ gather (some (k, vs)) items) := by
  rw [groupItems, List.append_assoc, List.cons_append, gather_keys, gather_values]
  rfl

theorem gather_groups (entry : Option (K × List V)) (groups : List (Group K V)) (ks : List K)
    (k : K) (vs : List V) (items : List (Item K V)) :
    gather entry ((groups ++ [(ks, k, vs)]).flatMap groupItems ++ items) =
      entry.toList ++ (wholeEntries groups ks ++ gather (some (k, vs)) items) := by
  induction groups generalizing entry with
  | nil =>
      rw [List.nil_append, List.flatMap_singleton, gather_group]
      rfl
  | cons group groups ih =>
      obtain ⟨ks', k', vs'⟩ := group
      rw [List.cons_append, List.flatMap_cons, List.append_assoc, gather_group, ih, wholeEntries,
        wholeEntries, List.flatMap_cons, groupEntries]
      simp only [List.append_assoc, Option.toList_some]

/-- The items of entries are these entries. -/
theorem gather_itemsOf (entry : Option (K × List V)) (entries : List (K × List V)) :
    gather entry (itemsOf entries) = entry.toList ++ entries := by
  induction entries generalizing entry with
  | nil => exact (List.append_nil _).symm
  | cons head entries ih =>
      obtain ⟨k, vs⟩ := head
      rw [itemsOf, List.flatMap_cons, List.cons_append, gather, gather_values, ← itemsOf, ih]
      rfl

namespace Shape

theorem gather_lead {items : List (Item K V)} (hnone : (of items).groups = [])
    (entry : Option (K × List V)) (rest : List (Item K V)) :
    gather entry (items ++ rest) = gather (extend entry (of items).lead) rest := by
  conv => lhs; rw [← items_of items]
  rw [Shape.items, hnone, List.flatMap_nil, List.append_nil, gather_values]

theorem gather_groups {items : List (Item K V)} {groups : List (Group K V)} {ks : List K} {k : K}
    {vs : List V} (hgroups : (of items).groups = groups ++ [(ks, k, vs)])
    (entry : Option (K × List V)) (rest : List (Item K V)) :
    gather entry (items ++ rest) =
      (extend entry (of items).lead).toList ++
        (wholeEntries groups ks ++ gather (some (k, vs)) rest) := by
  conv => lhs; rw [← items_of items]
  rw [Shape.items, hgroups, List.append_assoc, gather_values, Multimap.gather_groups]

def OnlyKeys (shape : Shape K V) : Prop :=
  shape.lead = [] ∧ ∃ ks k, shape.groups = [(ks, k, [])] ∧ ks ≠ []

def Single (shape : Shape K V) : Prop := ∀ group ∈ shape.groups, group.1.length ≤ 1

end Shape

theorem seen_le (ks : List K) : seen ks ≤ ks.length := by
  cases ks with
  | nil => exact le_rfl
  | cons k ks => exact Nat.succ_le_succ (Nat.zero_le _)

theorem seen_eq_iff (ks : List K) : seen ks = ks.length ↔ ks.length ≤ 1 := by
  cases ks with
  | nil => exact ⟨fun _ => Nat.zero_le 1, fun _ => rfl⟩
  | cons k ks =>
      rw [seen, if_neg (List.cons_ne_nil k ks), List.length_cons]
      omega

theorem keysOf_cons (group : Group K V) (groups : List (Group K V)) :
    keysOf (group :: groups) = group.1 ++ group.2.1 :: keysOf groups := by
  rw [keysOf, List.flatMap_cons, List.append_assoc, ← keysOf]
  rfl

theorem counted_cons (group : Group K V) (groups : List (Group K V)) :
    counted (group :: groups) = 1 + seen group.1 + counted groups := List.sum_cons

theorem counted_le (groups : List (Group K V)) : counted groups ≤ (keysOf groups).length := by
  induction groups with
  | nil => exact le_rfl
  | cons group groups ih =>
      have hseen := seen_le group.1
      rw [counted_cons, keysOf_cons, List.length_append, List.length_cons]
      omega

/-- The scanner counts every key just where all runs of keys without values are single keys. -/
theorem counted_eq_iff (groups : List (Group K V)) :
    counted groups = (keysOf groups).length ↔ ∀ group ∈ groups, group.1.length ≤ 1 := by
  induction groups with
  | nil => exact ⟨fun _ => nofun, fun _ => rfl⟩
  | cons group groups ih =>
      have hseen := seen_le group.1
      have hrest := counted_le groups
      have hhead := seen_eq_iff group.1
      rw [List.forall_mem_cons, ← ih, ← hhead, counted_cons, keysOf_cons, List.length_append,
        List.length_cons]
      omega

theorem zip_noValues (ks : List K) : ks.zip (ks.map fun _ => ([] : List V)) = ks.map (·, []) := by
  induction ks with
  | nil => rfl
  | cons k ks ih => exact congrArg (_ :: ·) ih

theorem zip_groupValues (group : Group K V) :
    (group.1 ++ [group.2.1]).zip (groupValues group) = groupEntries group := by
  obtain ⟨ks, k, vs⟩ := group
  have hlength : ks.length = (ks.map fun _ => ([] : List V)).length := (List.length_map _).symm
  rw [groupValues, List.zip_append hlength, zip_noValues]
  rfl

theorem length_groupValues (group : Group K V) :
    (group.1 ++ [group.2.1]).length = (groupValues group).length := by
  obtain ⟨ks, k, vs⟩ := group
  rw [groupValues, List.length_append, List.length_append, List.length_map]
  rfl

theorem zip_wholeEntries (groups : List (Group K V)) (ks : List K) :
    (keysOf groups ++ ks).zip (groups.flatMap groupValues ++ ks.map fun _ => ([] : List V)) =
      wholeEntries groups ks := by
  induction groups with
  | nil => exact zip_noValues ks
  | cons group groups ih =>
      rw [keysOf, List.flatMap_cons, ← keysOf, wholeEntries, List.flatMap_cons, List.flatMap_cons,
        List.append_assoc (group.1 ++ [group.2.1]), List.append_assoc (groupValues group),
        List.append_assoc (groupEntries group), List.zip_append (length_groupValues group),
        zip_groupValues, ih]
      rfl

theorem length_wholeEntries (groups : List (Group K V)) (ks : List K) :
    (wholeEntries groups ks).length = (keysOf groups ++ ks).length := by
  induction groups with
  | nil => exact List.length_map _
  | cons group groups ih =>
      have hgroup : (groupEntries group).length = (group.1 ++ [group.2.1]).length := by
        rw [groupEntries, List.length_append, List.length_append, List.length_map]
        rfl
      rw [wholeEntries, List.flatMap_cons, keysOf, List.flatMap_cons, ← keysOf, List.append_assoc,
        ← wholeEntries, List.append_assoc, List.length_append, List.length_append, ih, hgroup]

/-- What the scanner reads of a leaf of single keys. -/
theorem take_keys {groups : List (Group K V)} {ks : List K} (k : K)
    (hgroups : ∀ group ∈ groups, group.1.length ≤ 1) (hks : ks.length ≤ 1) :
    (keysOf groups ++ (ks ++ [k])).take (counted groups + seen ks) = keysOf groups ++ ks ∧
      (keysOf groups ++ (ks ++ [k]))[counted groups + seen ks]? = some k := by
  have hcounted := (counted_eq_iff groups).mpr hgroups
  have hseen := (seen_eq_iff ks).mpr hks
  have hlength : (keysOf groups ++ ks).length = counted groups + seen ks := by
    rw [List.length_append, hcounted, hseen]
  rw [← List.append_assoc, ← hlength, List.take_left, List.getElem?_concat_length]
  exact ⟨rfl, rfl⟩

theorem keysOf_concat (groups : List (Group K V)) (ks : List K) (k : K) (vs : List V) :
    keysOf (groups ++ [(ks, k, vs)]) = keysOf groups ++ (ks ++ [k]) := by
  rw [keysOf, List.flatMap_append, List.flatMap_singleton, ← keysOf]

namespace Scanner

structure Ready [Inhabited K] (scanner : Scanner K V) (items : List (Item K V)) : Prop where
  holds : scanner.leaf.Holds items
  start : scanner.localPos = 0
  processPrefix : scanner.parser.processPrefix = true
  startIdx : scanner.parser.startIdx = 0
  lead : scanner.lead = (Shape.of items).lead
  noKey : (Shape.of items).groups = [] →
    scanner.hasSuffix = false ∧ scanner.keys = [] ∧ scanner.values = []
  groups : ∀ groups ks k vs, (Shape.of items).groups = groups ++ [(ks, k, vs)] →
    scanner.hasSuffix = true ∧
      scanner.keys = (keysOf groups ++ (ks ++ [k])).take (counted groups + seen ks) ∧
      scanner.values = groups.flatMap groupValues ++ (ks.map fun _ => []) ∧
      scanner.suffixKey = (keysOf groups ++ (ks ++ [k])).getD (counted groups + seen ks) default ∧
      scanner.suffix = vs ∧
      (scanner.leaf.values.drop scanner.suffixStart).take scanner.suffix.length = vs

variable [Inhabited K] {scanner : Scanner K V} {items : List (Item K V)}

theorem buildIndex_ready (hholds : scanner.leaf.Holds items)
    (hfits : scanner.parser.Fits (Shape.of items).lead) (hpos : scanner.localPos = 0)
    (hstart : scanner.parser.startIdx = 0) :
    (scanner.buildIndex (0, 0) = none ∧ (Shape.of items).OnlyKeys) ∨
      ¬ (Shape.of items).OnlyKeys ∧ ∃ next, scanner.buildIndex (0, 0) = some next ∧
        next.Ready items ∧ next.suffixBuffer = scanner.suffixBuffer := by
  have hshaped := hholds.shaped
  have hof : Shape.of items = ⟨(Shape.of items).lead, (Shape.of items).groups⟩ := rfl
  rcases List.eq_nil_or_concat' (Shape.of items).groups with hnone | ⟨groups, ⟨ks, k, vs⟩, hgroups⟩
  · refine .inr ⟨?_, ?_⟩
    · rintro ⟨-, ks, k, hgroups, -⟩
      rw [hnone] at hgroups
      exact List.cons_ne_nil _ _ hgroups.symm
    · rw [hof, hnone] at hshaped
      refine ⟨_, buildIndex_lead hshaped hstart, ?_, rfl⟩
      refine ⟨hholds, hpos, rfl, rfl, rfl, fun _ => ⟨rfl, rfl, rfl⟩, ?_⟩
      intro groups ks k vs hgroups
      rw [hnone] at hgroups
      exact absurd hgroups.symm (List.append_ne_nil_of_right_ne_nil _ (List.cons_ne_nil _ _))
  · have hkeys : scanner.leaf.keys = keysOf groups ++ (ks ++ [k]) := by
      rw [hshaped.keys, hgroups, keysOf_concat]
    have hvalues : scanner.leaf.values = (Shape.of items).lead ++ (valuesOf groups ++ vs) := by
      rw [hshaped.values, hgroups, valuesOf, List.flatMap_append, List.flatMap_singleton]
      rfl
    rw [hof, hgroups] at hshaped
    rw [buildIndex_groups hshaped hfits hstart, hkeys]
    split_ifs with honly
    · obtain ⟨hlead, rfl, hks, rfl⟩ := honly
      exact .inl ⟨rfl, hlead, ks, k, hgroups, hks⟩
    · refine .inr ⟨?_, _, rfl, ⟨hholds, hpos, rfl, rfl, rfl, ?_, ?_⟩, rfl⟩
      · rintro ⟨hlead, ks', k', hsingle, hks⟩
        rw [hgroups] at hsingle
        obtain ⟨hnil, hlast⟩ := List.append_inj' (hsingle.trans (List.nil_append _).symm) rfl
        obtain ⟨⟩ := hlast
        exact honly ⟨hlead, hnil, hks, rfl⟩
      · intro hnone
        rw [hgroups] at hnone
        exact absurd hnone (List.append_ne_nil_of_right_ne_nil _ (List.cons_ne_nil _ _))
      · intro groups' ks' k' vs' hgroups'
        rw [hgroups] at hgroups'
        obtain ⟨rfl, hlast⟩ := List.append_inj' hgroups' rfl
        obtain ⟨⟩ := hlast
        refine ⟨rfl, rfl, rfl, rfl, rfl, ?_⟩
        rw [hvalues, ← List.drop_drop, List.drop_left, List.drop_left, List.take_length]

end Scanner

theorem bodyCalls_cons (seqId : ℕ) (k : K) (keys : List K) (vs : List V) (values : List (List V)) :
    bodyCalls seqId (k :: keys) (vs :: values) =
      ⟨seqId, k, vs, true, true⟩ :: bodyCalls (seqId + 1) keys values := by
  rw [bodyCalls, List.zip_cons_cons, List.mapIdx_cons, bodyCalls]
  congr 1
  refine congrArg (fun f => List.mapIdx f (keys.zip values)) ?_
  funext c entry
  rw [Nat.add_assoc, Nat.add_comm 1 c]

theorem assemble_bodyCalls (seqId : ℕ) (keys : List K) (values : List (List V))
    (calls : List (Call K V)) :
    assemble seqId none (bodyCalls seqId keys values ++ calls) =
      (assemble (seqId + (keys.zip values).length) none calls).map (keys.zip values ++ ·) := by
  induction keys generalizing seqId values with
  | nil => exact (Option.map_id' ..).symm
  | cons k keys ih =>
      cases values with
      | nil => exact (Option.map_id' ..).symm
      | cons vs values =>
          rw [bodyCalls_cons, List.cons_append, assemble, if_pos ⟨rfl, rfl⟩, if_pos rfl, ih,
            Option.map_map, List.zip_cons_cons, List.length_cons, Nat.add_assoc,
            Nat.add_comm 1 (keys.zip values).length]
          rfl

/-- The call that ends an entry. -/
theorem assemble_finish (seqId : ℕ) (entry : K × List V) (key : K) (values : List V)
    (calls : List (Call K V)) :
    assemble seqId (some entry) (⟨seqId, key, values, false, true⟩ :: calls) =
      (assemble (seqId + 1) none calls).map ((entry.1, entry.2 ++ values) :: ·) := by
  rw [assemble, if_pos ⟨rfl, rfl⟩, if_pos rfl]

theorem assemble_go (seqId : ℕ) (entry : K × List V) (key : K) (values : List V)
    (calls : List (Call K V)) :
    assemble seqId (some entry) (⟨seqId, key, values, false, false⟩ :: calls) =
      assemble seqId (some (entry.1, entry.2 ++ values)) calls := by
  rw [assemble, if_pos ⟨rfl, rfl⟩]
  rfl

theorem assemble_start (seqId : ℕ) (key : K) (values : List V) (calls : List (Call K V)) :
    assemble seqId none (⟨seqId, key, values, true, false⟩ :: calls) =
      assemble seqId (some (key, values)) calls := by
  rw [assemble, if_pos ⟨rfl, rfl⟩]
  rfl

/-- The number of entries is that of the calls that begin one. -/
theorem length_of_assemble {seqId : ℕ} {entry : Option (K × List V)} {calls : List (Call K V)}
    {entries : List (K × List V)} (hassemble : assemble seqId entry calls = some entries) :
    entries.length = entry.toList.length + calls.countP Call.start := by
  induction calls generalizing seqId entry entries with
  | nil =>
      cases entry with
      | none =>
          obtain rfl := Option.some.inj hassemble
          rfl
      | some entry => exact nomatch hassemble
  | cons call calls ih =>
      cases entry with
      | none =>
          simp only [assemble, Option.ite_none_right_eq_some] at hassemble
          obtain ⟨⟨hstart, -⟩, hassemble⟩ := hassemble
          rw [List.countP_cons_of_pos hstart]
          split_ifs at hassemble with hfinish
          · obtain ⟨rest, hrest, rfl⟩ := Option.map_eq_some_iff.mp hassemble
            exact congrArg (· + 1) (ih hrest)
          · rw [ih hassemble, Option.toList_some, Option.toList_none, List.length_singleton,
              List.length_nil, Nat.zero_add, Nat.add_comm]
      | some entry =>
          simp only [assemble, Option.ite_none_right_eq_some] at hassemble
          obtain ⟨⟨hstart, -⟩, hassemble⟩ := hassemble
          rw [List.countP_cons_of_neg (by simp [hstart])]
          split_ifs at hassemble with hfinish
          · obtain ⟨rest, hrest, rfl⟩ := Option.map_eq_some_iff.mp hassemble
            rw [List.length_cons, ih hrest, Option.toList_none, Option.toList_some,
              List.length_singleton, List.length_nil]
            omega
          · have hopen := ih hassemble
            rwa [Option.toList_some, List.length_singleton] at hopen

def leafCalls [Inhabited K] (entry : Option (K × List V)) (seqId : ℕ) (scanner : Scanner K V) :
    List (Call K V) :=
  let prefixCalls :=
    if entry.isSome then [⟨seqId, default, scanner.lead, false, scanner.hasSuffix⟩] else []
  let seqId := if entry.isSome && scanner.hasSuffix then seqId + 1 else seqId
  prefixCalls ++ bodyCalls seqId scanner.keys scanner.values ++
    if scanner.hasSuffix then
      [⟨seqId + scanner.keys.length, scanner.suffixKey, scanner.suffix, true, false⟩]
    else []

def nextId (entry : Option (K × List V)) (seqId : ℕ) (scanner : Scanner K V) : ℕ :=
  (if entry.isSome && scanner.hasSuffix then seqId + 1 else seqId) + scanner.keys.length

def nextEntry (entry : Option (K × List V)) (scanner : Scanner K V) : Option (K × List V) :=
  if scanner.hasSuffix then some (scanner.suffixKey, scanner.suffix) else extend entry scanner.lead

namespace Scanner.Ready

variable [Inhabited K] {scanner : Scanner K V} {items : List (Item K V)}

/-- The calls for a leaf of single keys deliver its entries. -/
theorem assemble_leafCalls (h : scanner.Ready items) (hsingle : (Shape.of items).Single)
    (entry : Option (K × List V)) (hentry : entry.isSome ∨ (Shape.of items).groups ≠ [])
    (seqId : ℕ) (calls : List (Call K V)) (rest : List (Item K V))
    (hcalls : assemble (nextId entry seqId scanner) (nextEntry entry scanner) calls =
      some (gather (nextEntry entry scanner) rest)) :
    assemble seqId entry (leafCalls entry seqId scanner ++ calls) =
      some (gather entry (items ++ rest)) := by
  rcases List.eq_nil_or_concat' (Shape.of items).groups with hnone | ⟨groups, ⟨ks, k, vs⟩, hgroups⟩
  · obtain ⟨hsuffix, hkeys, hvalues⟩ := h.noKey hnone
    obtain ⟨open', rfl⟩ := Option.isSome_iff_exists.mp (hentry.resolve_right (not_not_intro hnone))
    rw [nextId, nextEntry, hsuffix, hkeys] at hcalls
    rw [Shape.gather_lead hnone, leafCalls, hsuffix, hkeys, hvalues, ← h.lead]
    exact (assemble_go ..).trans hcalls
  · obtain ⟨hsuffix, hkeys, hvalues, hkey, hvs, -⟩ := h.groups groups ks k vs hgroups
    have hks : ks.length ≤ 1 := hsingle (ks, k, vs) (hgroups ▸ List.mem_concat_self)
    have hrest : ∀ group ∈ groups, group.1.length ≤ 1 := fun group hmem =>
      hsingle group (hgroups ▸ List.mem_append_left _ hmem)
    obtain ⟨htake, hget⟩ := take_keys k hrest hks
    have hzip : scanner.keys.zip scanner.values = wholeEntries groups ks := by
      rw [hkeys, hvalues, htake, zip_wholeEntries]
    have hlength : (wholeEntries groups ks).length = scanner.keys.length := by
      rw [hkeys, htake, length_wholeEntries]
    have hname : scanner.suffixKey = k := by
      rw [hkey, List.getD_eq_getElem?_getD, hget, Option.getD_some]
    rw [nextEntry, if_pos hsuffix, hname, hvs] at hcalls
    have hbody (seqId : ℕ) (hbody : assemble (seqId + scanner.keys.length) (some (k, vs)) calls =
        some (gather (some (k, vs)) rest)) :
        assemble seqId none (bodyCalls seqId scanner.keys scanner.values ++
          ⟨seqId + scanner.keys.length, k, vs, true, false⟩ :: calls) =
            some (wholeEntries groups ks ++ gather (some (k, vs)) rest) := by
      rw [assemble_bodyCalls, hzip, hlength, assemble_start, hbody, Option.map_some]
    rw [Shape.gather_groups hgroups, leafCalls, hsuffix, hname, hvs, List.append_assoc,
      List.append_assoc, ← h.lead]
    rw [nextId, hsuffix] at hcalls
    cases entry with
    | none => exact hbody seqId hcalls
    | some entry =>
        have hwhole := hbody (seqId + 1) hcalls
        exact (assemble_finish ..).trans (congrArg (Option.map _) hwhole)

theorem isEnd_eq (h : scanner.Ready items) (hne : items ≠ []) : scanner.isEnd = false := by
  have hlength : (expand scanner.leaf.symbolSequence).length = items.length := by
    rw [h.holds.symbols, List.length_map]
  rw [isEnd, h.start, hlength]
  exact decide_eq_false (Nat.not_le_of_gt (List.length_pos_iff.mpr hne))

/-- The next leaf is read, unless it has two or more keys and nothing else. -/
theorem nextLeaf (h : scanner.Ready items) {leaf : Leaf K V} {items' : List (Item K V)}
    (hholds : leaf.Holds items') :
    (scanner.nextLeaf leaf = none ∧ (Shape.of items').OnlyKeys) ∨
      ¬ (Shape.of items').OnlyKeys ∧ ∃ next, scanner.nextLeaf leaf = some next ∧
        next.Ready items' ∧ next.suffixBuffer = scanner.suffixBuffer := by
  have hbuild := @buildIndex_ready K V _ { scanner with leaf := leaf, localPos := 0 } items' hholds
  exact hbuild (.inl h.processPrefix) rfl h.startIdx

end Scanner.Ready

section ForEach

variable [Inhabited K]

omit [Inhabited K] in
theorem nextEntry_isSome (entry : Option (K × List V)) (scanner : Scanner K V) :
    (nextEntry entry scanner).isSome = (entry.isSome || scanner.hasSuffix) := by
  rw [nextEntry]
  cases scanner.hasSuffix with
  | false => exact (Option.isSome_map ..).trans (Bool.or_false _).symm
  | true => exact (Bool.or_true _).symm

/-- The call behind the last leaf. -/
theorem forEachLoop_nil {scanner : Scanner K V} (hend : scanner.isEnd = false)
    (entry : Option (K × List V)) (seqId : ℕ) :
    forEachLoop [] scanner entry.isSome seqId =
      some (leafCalls entry seqId scanner ++
        [⟨nextId entry seqId scanner, default, [], false, true⟩]) := by
  rw [forEachLoop.eq_def]
  dsimp only
  rw [hend]
  rfl

theorem forEachLoop_cons {scanner : Scanner K V} (hend : scanner.isEnd = false)
    (entry : Option (K × List V)) (seqId : ℕ) (leaf : Leaf K V) (rest : List (Leaf K V)) :
    forEachLoop (leaf :: rest) scanner entry.isSome seqId =
      (scanner.nextLeaf leaf).bind fun next =>
        (forEachLoop rest next (nextEntry entry scanner).isSome (nextId entry seqId scanner)).map
          (leafCalls entry seqId scanner ++ ·) := by
  rw [forEachLoop.eq_def, nextEntry_isSome]
  dsimp only [Option.bind_eq_bind]
  rw [hend, if_neg Bool.false_ne_true]
  refine congrArg (Option.bind (scanner.nextLeaf leaf)) ?_
  funext next
  exact Option.map_eq_bind.symm

def Plain (items : List (Item K V)) : Prop :=
  items ≠ [] ∧ (Shape.of items).Single ∧ ¬ (Shape.of items).OnlyKeys

theorem forEachLoop_delivers {rest : List (Leaf K V)} {parts : List (List (Item K V))}
    (hholds : List.Forall₂ Leaf.Holds rest parts) (hplain : ∀ part ∈ parts, Plain part)
    {scanner : Scanner K V} {items : List (Item K V)} (h : scanner.Ready items)
    (hitems : Plain items) (entry : Option (K × List V))
    (hentry : entry.isSome ∨ (Shape.of items).groups ≠ []) (seqId : ℕ) :
    ∃ calls, forEachLoop rest scanner entry.isSome seqId = some calls ∧
      assemble seqId entry calls = some (gather entry (items ++ parts.flatten)) := by
  have hnext : (nextEntry entry scanner).isSome := by
    rw [nextEntry_isSome, Bool.or_eq_true]
    refine hentry.imp_right fun hgroups => ?_
    obtain ⟨groups, ⟨ks, k, vs⟩, hlast⟩ :=
      (List.eq_nil_or_concat' (Shape.of items).groups).resolve_left hgroups
    exact (h.groups groups ks k vs hlast).1
  induction hholds generalizing scanner items entry seqId with
  | nil =>
      obtain ⟨last, hlast⟩ := Option.isSome_iff_exists.mp hnext
      refine ⟨_, forEachLoop_nil (h.isEnd_eq hitems.1) entry seqId, ?_⟩
      refine h.assemble_leafCalls hitems.2.1 entry hentry seqId _ _ ?_
      rw [hlast, assemble_finish, List.append_nil]
      rfl
  | cons hleaf hrest ih =>
      have hpart := hplain _ List.mem_cons_self
      obtain ⟨-, next, hbuild, hready, -⟩ :=
        (h.nextLeaf hleaf).resolve_left fun hnone => hpart.2.2 hnone.2
      have hentry' : (nextEntry (nextEntry entry scanner) next).isSome := by
        rw [nextEntry_isSome, hnext, Bool.true_or]
      obtain ⟨calls, hcalls, hassemble⟩ := ih (fun part hmem =>
        hplain part (List.mem_cons_of_mem _ hmem)) hready hpart (nextEntry entry scanner)
        (.inl hnext) (nextId entry seqId scanner) hentry'
      refine ⟨leafCalls entry seqId scanner ++ calls, ?_, ?_⟩
      · rw [forEachLoop_cons (h.isEnd_eq hitems.1), hbuild, Option.bind_some, hcalls,
          Option.map_some]
      · rw [List.flatten_cons]
        exact h.assemble_leafCalls hitems.2.1 entry hentry seqId _ _ hassemble

theorem Scanner.Ready.withBuffer {scanner : Scanner K V} {items : List (Item K V)}
    (h : scanner.Ready items) (buffer : List V) :
    ({ scanner with suffixBuffer := buffer } : Scanner K V).Ready items :=
  ⟨h.holds, h.start, h.processPrefix, h.startIdx, h.lead, h.noKey, h.groups⟩

theorem Scanner.Ready.take_lead {scanner : Scanner K V} {items : List (Item K V)}
    (h : scanner.Ready items) :
    scanner.leaf.values.take scanner.lead.length = (Shape.of items).lead := by
  rw [h.holds.shaped.values, h.lead, List.take_left]

theorem Scanner.Ready.hasSuffix_iff {scanner : Scanner K V} {items : List (Item K V)}
    (h : scanner.Ready items) : scanner.hasSuffix = true ↔ (Shape.of items).groups ≠ [] := by
  refine ⟨fun hsuffix hnone => ?_, fun hgroups => ?_⟩
  · exact Bool.false_ne_true ((h.noKey hnone).1.symm.trans hsuffix)
  · obtain ⟨groups, ⟨ks, k, vs⟩, hlast⟩ :=
      (List.eq_nil_or_concat' (Shape.of items).groups).resolve_left hgroups
    exact (h.groups groups ks k vs hlast).1

omit [Inhabited K] in
/-- An entry ends where a leaf has a key. -/
theorem Shape.gather_some {items : List (Item K V)} (hgroups : (of items).groups ≠ []) (k : K)
    (vs : List V) (rest : List (Item K V)) :
    gather (some (k, vs)) (items ++ rest) =
      (k, vs ++ (of items).lead) :: gather none (items ++ rest) := by
  obtain ⟨groups, ⟨ks, k', vs'⟩, hlast⟩ :=
    (List.eq_nil_or_concat' (of items).groups).resolve_left hgroups
  rw [gather_groups hlast, gather_groups hlast]
  rfl

/-- The scanner goes on to a leaf with a key, or to the end, and has the values of the entry that is
open. -/
theorem fillLoop_spec {rest : List (Leaf K V)} {parts : List (List (Item K V))}
    (hholds : List.Forall₂ Leaf.Holds rest parts) (hplain : ∀ part ∈ parts, Plain part)
    {scanner : Scanner K V} {items : List (Item K V)} (h : scanner.Ready items)
    (hne : items ≠ []) :
    ∃ rest' next, fillLoop rest scanner = some (rest', next) ∧
      (next.isEnd = true ∧ (∀ k, gather (some (k, scanner.suffixBuffer)) parts.flatten =
          [(k, next.suffixBuffer)]) ∨
        ∃ items' parts', List.Forall₂ Leaf.Holds rest' parts' ∧ (∀ part ∈ parts', Plain part) ∧
          next.Ready items' ∧ Plain items' ∧ (Shape.of items').groups ≠ [] ∧
          rest'.length < rest.length ∧
          ∀ k, gather (some (k, scanner.suffixBuffer)) parts.flatten =
            (k, next.suffixBuffer) :: gather none (items' ++ parts'.flatten)) := by
  induction hholds generalizing scanner items with
  | nil =>
      refine ⟨[], { scanner with localPos := (expand scanner.leaf.symbolSequence).length }, ?_,
        .inl ⟨?_, fun k => rfl⟩⟩
      · rw [fillLoop.eq_def]
        dsimp only
        rw [h.isEnd_eq hne, if_neg Bool.false_ne_true]
      · exact decide_eq_true le_rfl
  | cons hleaf hrest ih =>
      rename_i leaf part rest parts
      have hpart := hplain part List.mem_cons_self
      have hparts : ∀ part ∈ parts, Plain part := fun part hmem =>
        hplain part (List.mem_cons_of_mem _ hmem)
      obtain ⟨-, next, hbuild, hready, hbuffer⟩ :=
        (h.nextLeaf hleaf).resolve_left fun hnone => hpart.2.2 hnone.2
      have hready' := hready.withBuffer (scanner.suffixBuffer ++ (Shape.of part).lead)
      have hstep : fillLoop (leaf :: rest) scanner =
          if next.hasSuffix then
            some (rest, { next with suffixBuffer := scanner.suffixBuffer ++ (Shape.of part).lead })
          else fillLoop rest
            { next with suffixBuffer := scanner.suffixBuffer ++ (Shape.of part).lead } := by
        rw [fillLoop.eq_def]
        dsimp only
        rw [h.isEnd_eq hne, if_neg Bool.false_ne_true, hbuild]
        dsimp only [Option.bind_eq_bind, Option.bind_some]
        rw [hbuffer, hready.take_lead]
      rw [hstep, List.flatten_cons]
      by_cases hgroups : (Shape.of part).groups = []
      · rw [if_neg fun hsuffix => hready.hasSuffix_iff.mp hsuffix hgroups]
        obtain ⟨rest', last, hfill, hcases⟩ := ih hparts hready' hpart.1
        refine ⟨rest', last, hfill, ?_⟩
        simp only [Shape.gather_lead hgroups]
        refine hcases.imp_right ?_
        rintro ⟨items', parts', hholds', hplain', hlast, hitems', hkey, hlength, hgather⟩
        exact ⟨items', parts', hholds', hplain', hlast, hitems', hkey,
          hlength.trans (Nat.lt_succ_self _), hgather⟩
      · rw [if_pos (hready.hasSuffix_iff.mpr hgroups)]
        exact ⟨rest, _, rfl, .inr ⟨part, parts, hrest, hparts, hready', hpart, hgroups,
          Nat.lt_succ_self _, fun k => Shape.gather_some hgroups k _ _⟩⟩

theorem forEachBufferedLoop_delivers {fuel : ℕ} {rest : List (Leaf K V)}
    {parts : List (List (Item K V))} (hfuel : rest.length + 2 ≤ fuel)
    (hholds : List.Forall₂ Leaf.Holds rest parts) (hplain : ∀ part ∈ parts, Plain part)
    {scanner : Scanner K V} {items : List (Item K V)} (h : scanner.Ready items)
    (hitems : Plain items) (hgroups : (Shape.of items).groups ≠ []) (hasPrefix : Bool) (key : K) :
    forEachBufferedLoop fuel rest scanner hasPrefix key =
      some ((if hasPrefix then [(key, scanner.suffixBuffer)] else []) ++
        gather none (items ++ parts.flatten)) := by
  induction fuel generalizing rest parts scanner items hasPrefix key with
  | zero => exact absurd hfuel (Nat.not_succ_le_zero _)
  | succ fuel ih =>
      obtain ⟨groups, ⟨ks, k, vs⟩, hlast⟩ :=
        (List.eq_nil_or_concat' (Shape.of items).groups).resolve_left hgroups
      obtain ⟨hsuffix, hkeys, hvalues, hkey, hvs, hbuffer⟩ := h.groups groups ks k vs hlast
      have hks : ks.length ≤ 1 := hitems.2.1 (ks, k, vs) (hlast ▸ List.mem_concat_self)
      have hwhole : ∀ group ∈ groups, group.1.length ≤ 1 := fun group hmem =>
        hitems.2.1 group (hlast ▸ List.mem_append_left _ hmem)
      obtain ⟨htake, hget⟩ := take_keys k hwhole hks
      have hzip : scanner.keys.zip scanner.values = wholeEntries groups ks := by
        rw [hkeys, hvalues, htake, zip_wholeEntries]
      have hname : scanner.suffixKey = k := by
        rw [hkey, List.getD_eq_getElem?_getD, hget, Option.getD_some]
      obtain ⟨rest', next, hfill, hcases⟩ :=
        fillLoop_spec hholds hplain (h.withBuffer vs) hitems.1
      have hmore : forEachBufferedLoop fuel rest' next true k =
          some (gather (some (k, vs)) parts.flatten) := by
        rcases hcases with ⟨hend, hgather⟩ |
          ⟨items', parts', hholds', hplain', hready, hitems', hkey', hlength, hgather⟩
        · obtain ⟨fuel, rfl⟩ := Nat.exists_eq_succ_of_ne_zero (show fuel ≠ 0 by omega)
          rw [forEachBufferedLoop, if_pos hend, hgather]
        · rw [ih (by omega) hholds' hplain' hready hitems' hkey', hgather]
          rfl
      rw [forEachBufferedLoop, h.isEnd_eq hitems.1, if_neg Bool.false_ne_true, fillSuffixBuffer,
        hbuffer, hfill]
      dsimp only [Option.bind_eq_bind, Option.bind_some]
      rw [if_pos hsuffix, hname, hmore, Option.bind_some, hzip, Shape.gather_groups hlast,
        List.append_assoc]
      rfl

end ForEach

theorem Shape.length_keys (items : List (Item K V)) :
    (items.filterMap Item.key?).length = (keysOf (of items).groups).length := by
  conv => lhs; rw [← items_of items]
  rw [Shape.items, List.filterMap_append, (filterMap_values _).1, (filterMap_groups _).1]
  rfl

theorem length_itemsOf (entries : List (K × List V)) :
    ((itemsOf entries).filterMap Item.key?).length = entries.length := by
  induction entries with
  | nil => rfl
  | cons entry entries ih =>
      obtain ⟨k, vs⟩ := entry
      have hentry : (Item.key k :: vs.map Item.value).filterMap Item.key? = [k] :=
        congrArg (k :: ·) (filterMap_values vs).1
      have hsplit : itemsOf ((k, vs) :: entries) =
          (Item.key k :: vs.map Item.value) ++ itemsOf entries := rfl
      rw [hsplit, List.filterMap_append, hentry, List.length_append, ih, List.length_cons,
        Nat.add_comm]
      rfl

theorem countP_bodyCalls (seqId : ℕ) (keys : List K) (values : List (List V)) :
    (bodyCalls seqId keys values).countP Call.start = (keys.zip values).length := by
  induction keys generalizing seqId values with
  | nil => rfl
  | cons k keys ih =>
      cases values with
      | nil => rfl
      | cons vs values =>
          rw [bodyCalls_cons, List.countP_cons_of_pos rfl, ih]
          rfl

theorem length_flatMap_groupValues (groups : List (Group K V)) :
    (groups.flatMap groupValues).length = (keysOf groups).length := by
  induction groups with
  | nil => rfl
  | cons group groups ih =>
      have hsplit : keysOf (group :: groups) = (group.1 ++ [group.2.1]) ++ keysOf groups := rfl
      rw [List.flatMap_cons, List.length_append, ← length_groupValues, ih, hsplit,
        List.length_append, List.length_append, List.length_append]

theorem counted_concat (groups : List (Group K V)) (group : Group K V) :
    counted (groups ++ [group]) = counted groups + seen group.1 + 1 := by
  rw [counted, List.map_append, List.sum_append, List.map_singleton, List.sum_singleton, ← counted]
  omega

section Starts

variable [Inhabited K]

/-- The keys of a leaf that the calls begin. -/
theorem Scanner.Ready.countP_leafCalls {scanner : Scanner K V} {items : List (Item K V)}
    (h : scanner.Ready items) (entry : Option (K × List V)) (seqId : ℕ) :
    (leafCalls entry seqId scanner).countP Call.start = counted (Shape.of items).groups := by
  have hprefix : (if entry.isSome then
      [(⟨seqId, default, scanner.lead, false, scanner.hasSuffix⟩ : Call K V)] else []).countP
        Call.start = 0 := by
    split_ifs <;> rfl
  rw [leafCalls, List.countP_append, List.countP_append, hprefix, Nat.zero_add, countP_bodyCalls]
  rcases List.eq_nil_or_concat' (Shape.of items).groups with hnone | ⟨groups, ⟨ks, k, vs⟩, hlast⟩
  · obtain ⟨hsuffix, hkeys, -⟩ := h.noKey hnone
    rw [hsuffix, hkeys, hnone]
    rfl
  · obtain ⟨hsuffix, hkeys, hvalues, -⟩ := h.groups groups ks k vs hlast
    have hcounted := counted_le groups
    have hseen := seen_le ks
    rw [if_pos hsuffix, hlast, counted_concat, List.length_zip, hkeys, hvalues, List.length_take,
      List.length_append, List.length_append, List.length_append, List.length_map,
      length_flatMap_groupValues, List.countP_cons_of_pos rfl, List.countP_nil]
    dsimp only
    omega

/-- The number of the entries that begin says how many keys the scanner counts. -/
theorem forEachLoop_starts {rest : List (Leaf K V)} {parts : List (List (Item K V))}
    (hholds : List.Forall₂ Leaf.Holds rest parts) (hparts : ∀ part ∈ parts, part ≠ [])
    {scanner : Scanner K V} {items : List (Item K V)} (h : scanner.Ready items)
    (hne : items ≠ []) (entry : Option (K × List V)) (seqId : ℕ) {calls : List (Call K V)}
    (hcalls : forEachLoop rest scanner entry.isSome seqId = some calls) :
    calls.countP Call.start =
        ((items :: parts).map fun part => counted (Shape.of part).groups).sum ∧
      ∀ part ∈ parts, ¬ (Shape.of part).OnlyKeys := by
  induction hholds generalizing scanner items entry seqId calls with
  | nil =>
      rw [forEachLoop_nil (h.isEnd_eq hne)] at hcalls
      obtain rfl := Option.some.inj hcalls
      rw [List.countP_append, h.countP_leafCalls]
      exact ⟨rfl, nofun⟩
  | cons hleaf hrest ih =>
      rename_i leaf part rest parts
      rw [forEachLoop_cons (h.isEnd_eq hne)] at hcalls
      obtain ⟨next, hbuild, hcalls⟩ := Option.bind_eq_some_iff.mp hcalls
      obtain ⟨more, hmore, rfl⟩ := Option.map_eq_some_iff.mp hcalls
      rcases h.nextLeaf hleaf with ⟨hnone, -⟩ | ⟨honly, next', hbuild', hready, -⟩
      · exact nomatch hnone.symm.trans hbuild
      · obtain rfl := Option.some.inj (hbuild'.symm.trans hbuild)
        obtain ⟨hstarts, hrestOnly⟩ := ih (fun part hmem => hparts part (List.mem_cons_of_mem _ hmem))
          hready (hparts part List.mem_cons_self) _ _ hmore
        rw [List.countP_append, h.countP_leafCalls, hstarts]
        exact ⟨rfl, List.forall_mem_cons.mpr ⟨honly, hrestOnly⟩⟩

end Starts

namespace Shape

/-- A key in front of a key is one more key without values; a key in front of values, or of the end,
is a group of its own. -/
theorem pushKey_cases (k : K) (shape : Shape K V) :
    (∃ group groups, shape = ⟨[], group :: groups⟩ ∧
        shape.pushKey k = ⟨[], (k :: group.1, group.2) :: groups⟩) ∨
      (shape.lead = [] → shape.groups = []) ∧
        shape.pushKey k = ⟨[], ([], k, shape.lead) :: shape.groups⟩ := by
  match shape with
  | ⟨[], []⟩ => exact .inr ⟨fun _ => rfl, rfl⟩
  | ⟨[], group :: groups⟩ => exact .inl ⟨group, groups, rfl, rfl⟩
  | ⟨v :: lead, groups⟩ => exact .inr ⟨fun hlead => absurd hlead (List.cons_ne_nil _ _), rfl⟩

theorem value_not_isPrefix (v : V) (items : List (Item K V)) (symbols : List ℕ) :
    ¬ 0 :: symbols <+: (Item.value v :: items).map Item.symbol := fun hprefix =>
  Nat.zero_ne_one (List.cons_prefix_cons.mp hprefix).1

theorem key_isPrefix_iff (k : K) (items : List (Item K V)) (symbols : List ℕ) :
    0 :: symbols <+: (Item.key k :: items).map Item.symbol ↔
      symbols <+: items.map Item.symbol :=
  List.cons_prefix_cons.trans (and_iff_right rfl)

/-- Items that begin with a key. -/
theorem key_isPrefix (items : List (Item K V)) :
    [0] <+: items.map Item.symbol ↔ (of items).lead = [] ∧ (of items).groups ≠ [] := by
  cases items with
  | nil =>
      refine ⟨fun hprefix => ?_, fun h => absurd rfl h.2⟩
      exact absurd (List.prefix_nil.mp hprefix) (List.cons_ne_nil _ _)
  | cons item items =>
      cases item with
      | value v =>
          refine ⟨fun hprefix => absurd hprefix (value_not_isPrefix v items []), fun h => ?_⟩
          exact absurd h.1 (List.cons_ne_nil _ _)
      | key k =>
          rw [key_isPrefix_iff, of]
          refine ⟨fun _ => ?_, fun _ => List.nil_prefix⟩
          rcases pushKey_cases k (of items) with ⟨group, groups, -, hpush⟩ | ⟨-, hpush⟩ <;>
            exact hpush ▸ ⟨rfl, List.cons_ne_nil _ _⟩

/-- Items that begin with two keys. -/
theorem twoKeys_isPrefix (items : List (Item K V)) :
    [0, 0] <+: items.map Item.symbol ↔
      ∃ group groups, of items = ⟨[], group :: groups⟩ ∧ group.1 ≠ [] := by
  cases items with
  | nil =>
      refine ⟨fun hprefix => ?_, fun ⟨_, _, hof, _⟩ => nomatch hof⟩
      exact absurd (List.prefix_nil.mp hprefix) (List.cons_ne_nil _ _)
  | cons item items =>
      cases item with
      | value v =>
          refine ⟨fun hprefix => absurd hprefix (value_not_isPrefix v items [0]), ?_⟩
          rintro ⟨_, _, hof, -⟩
          exact absurd (congrArg Shape.lead hof) (List.cons_ne_nil _ _)
      | key k =>
          rw [key_isPrefix_iff, key_isPrefix, of]
          rcases pushKey_cases k (of items) with ⟨group, groups, hof, hpush⟩ | ⟨halone, hpush⟩
          · rw [hpush, hof]
            exact iff_of_true ⟨rfl, List.cons_ne_nil _ _⟩ ⟨_, _, rfl, List.cons_ne_nil _ _⟩
          · rw [hpush]
            refine iff_of_false (fun h => h.2 (halone h.1)) ?_
            rintro ⟨_, _, hof, hne⟩
            obtain ⟨⟩ := hof
            exact hne rfl

theorem single_iff (items : List (Item K V)) :
    (of items).Single ↔ ¬ [0, 0, 0] <:+: items.map Item.symbol := by
  induction items with
  | nil =>
      refine iff_of_true nofun fun hinfix => ?_
      exact absurd (List.infix_nil.mp hinfix) (List.cons_ne_nil _ _)
  | cons item items ih =>
      rw [List.map_cons, List.infix_cons_iff, ← List.map_cons, not_or, ← ih]
      cases item with
      | value v => exact (and_iff_right (value_not_isPrefix v items [0, 0])).symm
      | key k =>
          rw [key_isPrefix_iff, twoKeys_isPrefix, of]
          rcases pushKey_cases k (of items) with ⟨group, groups, hof, hpush⟩ | ⟨halone, hpush⟩
          · have hexists : (∃ group' groups', (⟨[], group :: groups⟩ : Shape K V) =
                ⟨[], group' :: groups'⟩ ∧ group'.1 ≠ []) ↔ group.1 ≠ [] := by
              refine ⟨?_, fun hne => ⟨group, groups, rfl, hne⟩⟩
              rintro ⟨_, _, hsame, hne⟩
              obtain ⟨⟩ := hsame
              exact hne
            have hlength : (k :: group.1).length ≤ 1 ↔ group.1 = [] :=
              Nat.succ_le_succ_iff.trans (Nat.le_zero.trans List.length_eq_zero_iff)
            rw [hpush, hof, hexists, Single, Single, List.forall_mem_cons, List.forall_mem_cons,
              hlength, not_not]
            refine ⟨fun h => ⟨h.1, ?_, h.2⟩, fun h => ⟨h.1, h.2.2⟩⟩
            rw [h.1]
            exact Nat.zero_le 1
          · have hnone : ¬ ∃ group groups, of items = ⟨[], group :: groups⟩ ∧ group.1 ≠ [] := by
              rintro ⟨group, groups, hof, -⟩
              rw [hof] at halone
              exact List.cons_ne_nil _ _ (halone rfl)
            rw [hpush, Single, List.forall_mem_cons, ← Single]
            exact ⟨fun h => ⟨hnone, h.2⟩, fun h => ⟨Nat.zero_le 1, h.2⟩⟩

theorem filterMap_value_eq_nil {items : List (Item K V)} (hone : 1 ∉ items.map Item.symbol) :
    items.filterMap Item.value? = [] := by
  refine List.filterMap_eq_nil_iff.mpr fun item hmem => ?_
  cases item with
  | key k => rfl
  | value v => exact absurd (List.mem_map_of_mem hmem) hone

theorem onlyKeys_iff (items : List (Item K V)) :
    (of items).OnlyKeys ↔ 2 ≤ items.length ∧ 1 ∉ items.map Item.symbol := by
  have hfilled := of_filled items
  have hitems := items_of items
  generalize of items = shape at hfilled hitems
  subst hitems
  constructor
  · rintro ⟨hlead, ks, k, hgroups, hks⟩
    have hpos := List.length_pos_iff.mpr hks
    have hkeys : shape.items = (ks ++ [k]).map Item.key := by
      rw [Shape.items, hlead, hgroups, List.map_append, List.flatMap_singleton]
      rfl
    rw [hkeys, map_symbol_keys, List.length_map, List.length_append, List.length_singleton]
    refine ⟨by omega, fun hmem => ?_⟩
    exact Nat.one_ne_zero (List.eq_of_mem_replicate hmem)
  · rintro ⟨hlength, hone⟩
    have hnil := filterMap_value_eq_nil hone
    rw [Shape.items, List.filterMap_append, (filterMap_values _).2, (filterMap_groups _).2,
      List.append_eq_nil_iff, valuesOf, List.flatMap_eq_nil_iff] at hnil
    obtain ⟨hlead, hvalues⟩ := hnil
    obtain ⟨lead, groups⟩ := shape
    obtain rfl : lead = [] := hlead
    cases groups with
    | nil => exact absurd hlength (Nat.not_succ_le_zero 1)
    | cons group groups =>
        obtain ⟨ks, k, vs⟩ := group
        have hvs : vs = [] := hvalues (ks, k, vs) List.mem_cons_self
        cases groups with
        | nil =>
            subst hvs
            refine ⟨rfl, ks, k, rfl, fun hks => ?_⟩
            subst hks
            exact absurd hlength (Nat.lt_irrefl 1)
        | cons group groups => exact absurd hvs (hfilled (ks, k, vs) List.mem_cons_self)

end Shape

theorem head_itemsOf (entries : List (K × List V)) {item : Item K V} {items : List (Item K V)}
    (hitems : itemsOf entries = item :: items) : ∃ k, item = .key k := by
  cases entries with
  | nil => exact nomatch hitems
  | cons entry entries =>
      obtain ⟨k, vs⟩ := entry
      exact ⟨k, (List.cons.inj hitems).1.symm⟩

theorem Shape.of_key (k : K) (items : List (Item K V)) :
    (of (.key k :: items)).lead = [] ∧ (of (.key k :: items)).groups ≠ [] :=
  (key_isPrefix _).mp ((key_isPrefix_iff k items []).mpr List.nil_prefix)

section Delivers

variable [Inhabited K]

theorem new_ready {leaf : Leaf K V} {items : List (Item K V)} (hholds : leaf.Holds items)
    (hlead : (Shape.of items).lead = []) :
    (Scanner.new leaf 0 = none ∧ (Shape.of items).OnlyKeys) ∨
      ¬ (Shape.of items).OnlyKeys ∧ ∃ next, Scanner.new leaf 0 = some next ∧ next.Ready items := by
  have hbuild := @Scanner.buildIndex_ready K V _
    ⟨leaf, 0, .new 0, [], [], [], false, default, [], 0, []⟩ items hholds
  exact (hbuild (.inr ⟨hlead, rfl⟩) rfl rfl).imp_right fun ⟨honly, next, hnext, hready, _⟩ => ⟨honly, next, hnext, hready⟩

/-- A multimap without entries. -/
theorem Tree.delivers_of_nil {tree : Tree K V} (hparts : tree.parts = [[]]) :
    tree.Delivers ∧ tree.Spaced := by
  obtain ⟨entries, parts, first, rest, joined, holds, nonempty⟩ := tree
  obtain rfl : parts = [[]] := hparts
  cases holds with
  | cons hfirst hrest =>
      cases hrest
      have hentries : entries = [] := by
        have hgather := gather_itemsOf none entries
        rw [← joined] at hgather
        exact hgather.symm
      subst hentries
      obtain ⟨-, next, hnew, hready⟩ := (new_ready hfirst rfl).resolve_left fun h =>
        nomatch h.2.2.choose_spec.choose_spec.1
      have hend : next.isEnd = true := by
        rw [Scanner.isEnd, hready.holds.symbols]
        exact decide_eq_true (Nat.zero_le _)
      refine ⟨⟨⟨[], ?_, rfl⟩, 0, ?_⟩, ?_⟩
      · rw [forEach, hnew, Option.bind_eq_bind, Option.bind_some, if_pos hend]
      · rw [forEachBuffered, hnew, Option.bind_eq_bind, Option.bind_some, if_pos hend]
      · rintro part hmem
        obtain rfl := List.mem_singleton.mp hmem
        exact ⟨fun hinfix => List.cons_ne_nil _ _ (List.infix_nil.mp hinfix),
          fun h => Nat.not_succ_le_zero 1 h.1⟩

omit [Inhabited K] in
/-- A multimap with entries has a key in front. -/
theorem first_lead {entries : List (K × List V)} {part : List (Item K V)}
    {parts : List (List (Item K V))} (hjoined : (part :: parts).flatten = itemsOf entries)
    (hne : part ≠ []) : (Shape.of part).lead = [] ∧ (Shape.of part).groups ≠ [] := by
  obtain ⟨item, items, rfl⟩ := List.exists_cons_of_ne_nil hne
  obtain ⟨k, rfl⟩ := head_itemsOf entries hjoined.symm
  exact Shape.of_key k items

theorem Tree.delivers_of_plain {tree : Tree K V} (hplain : ∀ part ∈ tree.parts, Plain part) :
    tree.Delivers := by
  obtain ⟨entries, parts, first, rest, joined, holds, nonempty⟩ := tree
  cases holds with
  | cons hfirst hrest =>
      rename_i part parts
      have hpart := hplain part List.mem_cons_self
      have hparts : ∀ part ∈ parts, Plain part := fun part hmem =>
        hplain part (List.mem_cons_of_mem _ hmem)
      obtain ⟨hlead, hgroups⟩ := first_lead joined hpart.1
      obtain ⟨-, next, hnew, hready⟩ := (new_ready hfirst hlead).resolve_left fun h =>
        hpart.2.2 h.2
      have hend := hready.isEnd_eq hpart.1
      have hentries : gather none (part ++ parts.flatten) = entries :=
        (congrArg (gather none) joined).trans (gather_itemsOf none entries)
      refine ⟨?_, rest.length + 2, ?_⟩
      · obtain ⟨calls, hcalls, hassemble⟩ :=
          forEachLoop_delivers hrest hparts hready hpart none (.inr hgroups) 0
        refine ⟨calls, ?_, hassemble.trans (congrArg some hentries)⟩
        rw [forEach, hnew, Option.bind_eq_bind, Option.bind_some, hend, if_neg Bool.false_ne_true]
        exact hcalls
      · have hloop := forEachBufferedLoop_delivers le_rfl hrest hparts hready hpart hgroups false
          default
        rw [forEachBuffered, hnew, Option.bind_eq_bind, Option.bind_some, hend,
          if_neg Bool.false_ne_true, hloop, hentries]
        rfl

/-- Where the calls begin as many entries as there are keys, all runs of keys without values are
single keys. -/
theorem Tree.plain_of_delivers {tree : Tree K V} (hdelivers : tree.Delivers)
    (hne : ∀ part ∈ tree.parts, part ≠ []) : ∀ part ∈ tree.parts, Plain part := by
  obtain ⟨⟨calls, hcalls, hassemble⟩, -⟩ := hdelivers
  have hlength := length_of_assemble hassemble
  obtain ⟨entries, parts, first, rest, joined, holds, nonempty⟩ := tree
  cases holds with
  | cons hfirst hrest =>
      rename_i part parts
      have hpart := hne part List.mem_cons_self
      obtain ⟨hlead, -⟩ := first_lead joined hpart
      rw [forEach] at hcalls
      rcases new_ready hfirst hlead with ⟨hnew, -⟩ | ⟨honly, next, hnew, hready⟩
      · rw [hnew] at hcalls
        exact nomatch hcalls
      · rw [hnew, Option.bind_eq_bind, Option.bind_some, hready.isEnd_eq hpart,
          if_neg Bool.false_ne_true] at hcalls
        obtain ⟨hstarts, honlyRest⟩ := forEachLoop_starts hrest
          (fun part hmem => hne part (List.mem_cons_of_mem _ hmem)) hready hpart none 0 hcalls
        have hkeys : ((part :: parts).map fun part => (keysOf (Shape.of part).groups).length).sum =
            entries.length := by
          rw [← length_itemsOf, ← joined, List.filterMap_flatten, List.length_flatten,
            List.map_map]
          refine congrArg List.sum (List.map_congr_left fun part _ => ?_)
          exact (Shape.length_keys part).symm
        have hsame := hkeys.trans (hlength.trans ((Nat.zero_add _).trans hstarts))
        intro part' hmem
        refine ⟨hne part' hmem, (counted_eq_iff _).mp ?_, ?_⟩
        · by_contra hcounted
          refine absurd hsame (Nat.ne_of_gt ?_)
          refine List.sum_lt_sum _ _ (fun part _ => counted_le _) ⟨part', hmem, ?_⟩
          exact Nat.lt_of_le_of_ne (counted_le _) hcounted
        · obtain rfl | hmem := List.mem_cons.mp hmem
          · exact honly
          · exact honlyRest part' hmem

omit [Inhabited K] in
theorem plain_iff {items : List (Item K V)} (hne : items ≠ []) :
    Plain items ↔ ¬ [0, 0, 0] <:+: items.map Item.symbol ∧
      ¬ (2 ≤ items.length ∧ 1 ∉ items.map Item.symbol) := by
  rw [Plain, Shape.single_iff, Shape.onlyKeys_iff]
  exact and_iff_right hne

/-- Both forms deliver every entry just where no leaf has three keys side by side, and none has two
or more keys and nothing else. -/
theorem Tree.delivers_iff (tree : Tree K V) : tree.Delivers ↔ tree.Spaced := by
  by_cases hnil : tree.parts = [[]]
  · exact iff_of_true (delivers_of_nil hnil).1 (delivers_of_nil hnil).2
  · have hne : ∀ part ∈ tree.parts, part ≠ [] := by
      refine tree.nonempty.elim (fun hrest => ?_) id
      have holds := tree.holds
      rw [hrest] at holds
      obtain ⟨part, parts, hpart, hparts, hsame⟩ := List.forall₂_cons_left_iff.mp holds
      obtain rfl := List.forall₂_nil_left_iff.mp hparts
      rw [hsame] at hnil ⊢
      rintro part' hmem rfl
      exact hnil (congrArg (fun part => [part]) (List.mem_singleton.mp hmem).symm)
    constructor
    · intro hdelivers part hmem
      exact (plain_iff (hne part hmem)).mp (plain_of_delivers hdelivers hne part hmem)
    · intro hspaced
      exact delivers_of_plain fun part hmem => (plain_iff (hne part hmem)).mpr (hspaced part hmem)

end Delivers

def twoKeys : Tree ℕ ℕ where
  entries := [(1, []), (2, [])]
  parts := [[.key 1, .key 2]]
  first := ⟨[⟨0, 2⟩], [1, 2], []⟩
  rest := []
  joined := rfl
  holds := .cons ⟨rfl, by decide, rfl, rfl⟩ .nil
  nonempty := .inl rfl

theorem twoKeys_throws : ¬ ∀ tree : Tree ℕ ℕ, tree.Delivers := by
  intro h
  obtain ⟨⟨calls, hcalls, -⟩, -⟩ := h twoKeys
  have hthrows : forEach twoKeys = none := rfl
  exact nomatch hthrows.symm.trans hcalls

def threeKeys : Tree ℕ ℕ where
  entries := [(1, []), (2, []), (3, [7])]
  parts := [[.key 1, .key 2, .key 3, .value 7]]
  first := ⟨[⟨0, 3⟩, ⟨1, 1⟩], [1, 2, 3], [7]⟩
  rest := []
  joined := rfl
  holds := .cons ⟨rfl, by decide, rfl, rfl⟩ .nil
  nonempty := .inl rfl

example : (forEachBuffered 3 threeKeys).map (·.map Prod.fst) = some [1, 2] := rfl

end Memoria.Multimap

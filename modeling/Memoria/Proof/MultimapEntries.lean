import Mathlib.Tactic.SplitIfs
import Memoria.MultimapEntries
import Memoria.Proof.RleIterator

/-!
# The entries scanner of a multimap

A leaf consists of values, the lead, and groups: keys without values, a key, and its values, which
only the last group may lack. The buffer of a leaf has one run for the keys without values of a
group, and the scanner takes every run for one key. So it delivers the entries just where these runs
are single keys.
-/

namespace Memoria.Multimap

open Lib Run RleSeq

variable {K V : Type}

def closed (symbol length : ℕ) : SymbolsBuffer :=
  if symbol < 1 ∧ 1 < length then [⟨symbol, length - 1⟩, ⟨symbol, 1⟩] else [⟨symbol, length⟩]

def bufferFrom (symbol length : ℕ) : List ℕ → SymbolsBuffer
  | [] => closed symbol length
  | x :: xs =>
      if x = symbol then bufferFrom symbol (length + 1) xs
      else closed symbol length ++ bufferFrom x 1 xs

def bufferOf : List ℕ → SymbolsBuffer
  | [] => []
  | x :: xs => bufferFrom x 1 xs

theorem bufferFrom_replicate (symbol length n : ℕ) (xs : List ℕ) :
    bufferFrom symbol length (List.replicate n symbol ++ xs) = bufferFrom symbol (length + n) xs := by
  induction n generalizing length with
  | zero => rfl
  | succ n ih =>
      rw [List.replicate_succ, List.cons_append, bufferFrom, if_pos rfl, ih]
      congr 1
      omega

theorem bufferFrom_of_ne {symbol x : ℕ} (hne : x ≠ symbol) (length : ℕ) (xs : List ℕ) :
    bufferFrom symbol length (x :: xs) = closed symbol length ++ bufferOf (x :: xs) := by
  rw [bufferFrom, if_neg hne, bufferOf]

theorem bufferOf_replicate {n : ℕ} (hpos : 0 < n) (symbol : ℕ) (xs : List ℕ) :
    bufferOf (List.replicate n symbol ++ xs) = bufferFrom symbol n xs := by
  obtain ⟨m, rfl⟩ := Nat.exists_eq_succ_of_ne_zero (Nat.ne_of_gt hpos)
  rw [List.replicate_succ, List.cons_append, bufferOf, bufferFrom_replicate, Nat.add_comm]

theorem finish_append (front : SymbolsBuffer) (symbol length : ℕ) :
    SymbolsBuffer.finish 1 (front ++ [⟨symbol, length⟩]) = front ++ closed symbol length := by
  rw [SymbolsBuffer.finish, List.getLast?_concat, closed]
  dsimp only
  split_ifs with hsymbol hlength hlength
  · rw [SymbolsBuffer.splitHead, List.getLast?_concat]
    dsimp only
    rw [if_pos hlength.2, List.dropLast_concat]
  · rw [SymbolsBuffer.splitHead, List.getLast?_concat]
    dsimp only
    rw [if_neg fun hlt => hlength ⟨hsymbol, hlt⟩]
  · exact absurd hlength.1 hsymbol
  · rfl

theorem appendRun_append (front : SymbolsBuffer) (symbol length : ℕ) (run : Run ℕ) :
    SymbolsBuffer.appendRun 1 run.symbol run.length (front ++ [⟨symbol, length⟩]) =
      if run.symbol = symbol then front ++ [⟨symbol, length + run.length⟩]
      else front ++ closed symbol length ++ [run] := by
  rw [SymbolsBuffer.appendRun, List.getLast?_concat]
  dsimp only
  by_cases hsame : run.symbol = symbol
  · rw [if_pos hsame, if_neg (not_not_intro hsame.symm), List.dropLast_concat]
  · have hfinish := finish_append front symbol length
    rw [SymbolsBuffer.finish, List.getLast?_concat] at hfinish
    dsimp only at hfinish
    rw [if_neg hsame, if_pos (Ne.symm hsame), hfinish]

theorem finish_foldl (runs : List (Run ℕ)) (hpos : ∀ run ∈ runs, 0 < run.length)
    (front : SymbolsBuffer) (symbol length : ℕ) :
    SymbolsBuffer.finish 1
        (runs.foldl (fun buffer run => SymbolsBuffer.appendRun 1 run.symbol run.length buffer)
          (front ++ [⟨symbol, length⟩])) =
      front ++ bufferFrom symbol length (expand runs) := by
  induction runs generalizing front symbol length with
  | nil => exact finish_append front symbol length
  | cons run runs ih =>
      have hrest : ∀ run ∈ runs, 0 < run.length := fun run hmem =>
        hpos run (List.mem_cons_of_mem _ hmem)
      have hrun := hpos run List.mem_cons_self
      rw [List.foldl_cons, appendRun_append, expand_cons]
      split_ifs with hsame
      · rw [ih hrest, hsame, bufferFrom_replicate]
      · obtain ⟨n, hn⟩ := Nat.exists_eq_succ_of_ne_zero (Nat.ne_of_gt hrun)
        rw [ih hrest, List.append_assoc, hn, List.replicate_succ, List.cons_append,
          bufferFrom_of_ne hsame, bufferOf, bufferFrom_replicate, Nat.add_comm]

theorem runsFrom_zero {runs : List (Run ℕ)} (hpos : ∀ run ∈ runs, 0 < run.length) :
    runsFrom 0 runs = runs := by
  cases runs with
  | nil => rfl
  | cons run runs =>
      rw [runsFrom, if_neg (Nat.not_le_of_gt (hpos run List.mem_cons_self)), Nat.sub_zero]

/-- The buffer depends on the symbols, not on the runs they are kept in. -/
theorem populateBuffer_eq {runs : List (Run ℕ)} (hpos : ∀ run ∈ runs, 0 < run.length) :
    populateBuffer runs 0 = bufferOf (expand runs) := by
  rw [populateBuffer, runsFrom_zero hpos]
  cases runs with
  | nil => rfl
  | cons run runs =>
      have hrun := hpos run List.mem_cons_self
      have hrest : ∀ run ∈ runs, 0 < run.length := fun run hmem =>
        hpos run (List.mem_cons_of_mem _ hmem)
      rw [List.foldl_cons, expand_cons, bufferOf_replicate hrun]
      exact finish_foldl runs hrest [] run.symbol run.length

abbrev Group (K V : Type) : Type := List K × K × List V

structure Shape (K V : Type) where
  lead : List V
  groups : List (Group K V)

def groupItems : Group K V → List (Item K V)
  | (ks, k, vs) => ks.map .key ++ .key k :: vs.map .value

namespace Shape

def items (shape : Shape K V) : List (Item K V) :=
  shape.lead.map .value ++ shape.groups.flatMap groupItems

def pushKey (k : K) : Shape K V → Shape K V
  | ⟨[], []⟩ => ⟨[], [([], k, [])]⟩
  | ⟨[], (ks, k', vs) :: groups⟩ => ⟨[], (k :: ks, k', vs) :: groups⟩
  | ⟨v :: lead, groups⟩ => ⟨[], ([], k, v :: lead) :: groups⟩

def of : List (Item K V) → Shape K V
  | [] => ⟨[], []⟩
  | .value v :: items => ⟨v :: (of items).lead, (of items).groups⟩
  | .key k :: items => (of items).pushKey k

theorem items_of (items : List (Item K V)) : (of items).items = items := by
  induction items with
  | nil => rfl
  | cons item items ih =>
      cases item with
      | value v =>
          rw [of]
          exact congrArg (Item.value v :: ·) ih
      | key k =>
          rw [of]
          conv => rhs; rw [← ih]
          match of items with
          | ⟨[], []⟩ => rfl
          | ⟨[], (ks, k', vs) :: groups⟩ => rfl
          | ⟨v :: lead, groups⟩ => rfl

def Filled (groups : List (Group K V)) : Prop := ∀ group ∈ groups.dropLast, group.2.2 ≠ []

theorem of_filled (items : List (Item K V)) : Filled (of items).groups := by
  induction items with
  | nil => exact nofun
  | cons item items ih =>
      cases item with
      | value v => exact ih
      | key k =>
          rw [of]
          match of items, ih with
          | ⟨[], []⟩, _ => exact nofun
          | ⟨[], [(ks, k', vs)]⟩, _ => exact nofun
          | ⟨[], (ks, k', vs) :: group :: groups⟩, ih =>
              intro g hmem
              obtain rfl | hmem := List.mem_cons.mp hmem
              · exact ih (ks, k', vs) List.mem_cons_self
              · exact ih g (List.mem_cons_of_mem _ hmem)
          | ⟨v :: lead, []⟩, _ => exact nofun
          | ⟨v :: lead, group :: groups⟩, ih =>
              intro g hmem
              obtain rfl | hmem := List.mem_cons.mp hmem
              · exact List.cons_ne_nil v lead
              · exact ih g hmem

end Shape

def keyRuns (ks : List K) : SymbolsBuffer := if ks = [] then [] else [⟨0, ks.length⟩]

def valueRuns (vs : List V) : SymbolsBuffer := if vs = [] then [] else [⟨1, vs.length⟩]

def groupRuns : Group K V → SymbolsBuffer
  | (ks, _, vs) => keyRuns ks ++ ⟨0, 1⟩ :: valueRuns vs

theorem closed_keys (ks : List K) : closed 0 (ks.length + 1) = keyRuns ks ++ [⟨0, 1⟩] := by
  cases ks with
  | nil => rfl
  | cons k ks =>
      rw [closed, if_pos ⟨Nat.zero_lt_one, by rw [List.length_cons]; omega⟩, keyRuns,
        if_neg (List.cons_ne_nil k ks)]
      rfl

theorem map_symbol_values (vs : List V) :
    (vs.map Item.value).map (Item.symbol : Item K V → ℕ) = List.replicate vs.length 1 := by
  rw [List.map_map]
  exact List.map_const' ..

theorem map_symbol_keys (ks : List K) :
    (ks.map Item.key).map (Item.symbol : Item K V → ℕ) = List.replicate ks.length 0 := by
  rw [List.map_map]
  exact List.map_const' ..

theorem map_symbol_group (ks : List K) (k : K) (vs : List V) :
    (groupItems (ks, k, vs)).map Item.symbol =
      List.replicate (ks.length + 1) 0 ++ List.replicate vs.length 1 := by
  rw [groupItems, List.map_append, map_symbol_keys, List.map_cons, map_symbol_values,
    List.replicate_succ']
  exact List.append_cons _ _ _

/-- Values, and what begins with a key behind them. -/
theorem bufferFrom_values {vs : List V} (hne : vs ≠ []) {xs : List ℕ} (hhead : xs.head? ≠ some 1) :
    bufferFrom 1 vs.length xs = valueRuns vs ++ bufferOf xs := by
  rw [valueRuns, if_neg hne]
  cases xs with
  | nil => rfl
  | cons x xs =>
      exact bufferFrom_of_ne (fun hx => hhead (congrArg some hx)) vs.length xs

theorem head?_groups (groups : List (Group K V)) :
    ((groups.flatMap groupItems).map Item.symbol).head? ≠ some 1 := by
  cases groups with
  | nil => exact nofun
  | cons group groups =>
      obtain ⟨ks, k, vs⟩ := group
      rw [List.flatMap_cons, List.map_append, map_symbol_group, List.replicate_succ]
      exact nofun

theorem bufferOf_groups {groups : List (Group K V)} (hfilled : Shape.Filled groups) :
    bufferOf ((groups.flatMap groupItems).map Item.symbol) = groups.flatMap groupRuns := by
  induction groups with
  | nil => rfl
  | cons group groups ih =>
      obtain ⟨ks, k, vs⟩ := group
      rw [List.flatMap_cons, List.map_append, map_symbol_group, List.append_assoc,
        bufferOf_replicate (Nat.succ_pos _), List.flatMap_cons, groupRuns]
      by_cases hvs : vs = []
      · cases groups with
        | nil =>
            rw [hvs]
            exact (closed_keys ks).trans (List.append_nil _).symm
        | cons group groups => exact absurd hvs (hfilled (ks, k, vs) List.mem_cons_self)
      · obtain ⟨n, hn⟩ := Nat.exists_eq_succ_of_ne_zero (Nat.ne_of_gt (List.length_pos_iff.mpr hvs))
        have hrest : Shape.Filled groups := by
          cases groups with
          | nil => exact nofun
          | cons group groups => exact fun g hmem => hfilled g (List.mem_cons_of_mem _ hmem)
        rw [hn, List.replicate_succ, List.cons_append, bufferFrom_of_ne Nat.one_ne_zero, closed_keys,
          bufferOf, bufferFrom_replicate, Nat.add_comm 1, ← Nat.succ_eq_add_one, ← hn,
          bufferFrom_values hvs (head?_groups groups), ih hrest, List.append_assoc,
          List.append_assoc]
        rfl

theorem Shape.bufferOf_items {shape : Shape K V} (hfilled : Filled shape.groups) :
    bufferOf (shape.items.map Item.symbol) =
      valueRuns shape.lead ++ shape.groups.flatMap groupRuns := by
  rw [items, List.map_append, map_symbol_values]
  by_cases hlead : shape.lead = []
  · rw [hlead]
    exact bufferOf_groups hfilled
  · rw [bufferOf_replicate (List.length_pos_iff.mpr hlead),
      bufferFrom_values hlead (head?_groups shape.groups), bufferOf_groups hfilled]

def groupValues : Group K V → List (List V)
  | (ks, _, vs) => ks.map (fun _ => []) ++ [vs]

def seen (ks : List K) : ℕ := if ks = [] then 0 else 1

theorem populateGroups_keys (ks : List K) (count : ℕ) (runs : SymbolsBuffer) (values : List V) :
    populateGroups ((keyRuns ks).length + count) (keyRuns ks ++ ⟨0, 1⟩ :: runs) values =
      (populateGroups count (⟨0, 1⟩ :: runs) values).map fun (groups, size, keys) =>
        (ks.map (fun _ => []) ++ groups, size, keys + seen ks) := by
  cases ks with
  | nil =>
      rw [keyRuns, if_pos rfl, List.length_nil, Nat.zero_add, List.nil_append]
      cases populateGroups count (⟨0, 1⟩ :: runs) values <;> rfl
  | cons k ks =>
      have hvalues : ((k :: ks).map fun _ => ([] : List V)) =
          List.replicate (k :: ks).length [] := List.map_const' ..
      rw [keyRuns, if_neg (List.cons_ne_nil k ks), List.length_singleton, Nat.add_comm,
        List.singleton_append, populateGroups, if_pos rfl, seen, if_neg (List.cons_ne_nil k ks),
        hvalues]
      by_cases hone : (k :: ks).length = 1
      · rw [if_pos hone, hone]
        dsimp only
        rw [if_neg Nat.zero_ne_one]
        cases populateGroups count (⟨0, 1⟩ :: runs) values <;> rfl
      · rw [if_neg hone]
        cases populateGroups count (⟨0, 1⟩ :: runs) values <;> rfl

theorem populateGroups_group (group : Group K V) (hvs : group.2.2 ≠ []) (count : ℕ)
    (runs : SymbolsBuffer) (values : List V) :
    populateGroups ((groupRuns group).length + count) (groupRuns group ++ runs)
        (group.2.2 ++ values) =
      (populateGroups count runs values).map fun (groups, size, keys) =>
        (groupValues group ++ groups, group.2.2.length + size, keys + 1 + seen group.1) := by
  obtain ⟨ks, k, vs⟩ := group
  have hcount : (groupRuns (ks, k, vs)).length + count =
      (keyRuns ks).length + (count + 2) := by
    rw [groupRuns, valueRuns, if_neg hvs, List.length_append, List.length_cons,
      List.length_singleton]
    omega
  rw [hcount, groupRuns, valueRuns, if_neg hvs, List.append_assoc, List.cons_append,
    populateGroups_keys, List.singleton_append, populateGroups, if_pos rfl, if_pos rfl]
  dsimp only
  rw [if_pos rfl, List.drop_left, List.take_left, Nat.add_sub_cancel]
  cases populateGroups count runs values with
  | none => rfl
  | some result =>
      obtain ⟨groups, size, keys⟩ := result
      dsimp only [Option.bind_eq_bind, Option.bind_some, Option.map_some, groupValues]
      rw [List.append_assoc]
      rfl

def counted (groups : List (Group K V)) : ℕ := (groups.map fun group => 1 + seen group.1).sum

def valuesOf (groups : List (Group K V)) : List V := groups.flatMap fun group => group.2.2

def keysOf (groups : List (Group K V)) : List K := groups.flatMap fun group => group.1 ++ [group.2.1]

/-- Groups with values, and keys without values behind them. -/
theorem populateGroups_groups {groups : List (Group K V)}
    (hvalues : ∀ group ∈ groups, group.2.2 ≠ []) (ks : List K) (runs : SymbolsBuffer)
    (values : List V) :
    populateGroups ((groups.flatMap groupRuns).length + (keyRuns ks).length)
        (groups.flatMap groupRuns ++ (keyRuns ks ++ ⟨0, 1⟩ :: runs)) (valuesOf groups ++ values) =
      some (groups.flatMap groupValues ++ ks.map (fun _ => []), (valuesOf groups).length,
        counted groups + seen ks) := by
  induction groups with
  | nil =>
      have hkeys := populateGroups_keys ks 0 runs values
      rw [Nat.add_zero, populateGroups, Option.map_some] at hkeys
      dsimp only at hkeys
      rw [List.append_nil] at hkeys
      rw [List.flatMap_nil, List.length_nil, Nat.zero_add]
      exact hkeys
  | cons group groups ih =>
      have hgroup := hvalues group List.mem_cons_self
      have hrest : ∀ group ∈ groups, group.2.2 ≠ [] := fun group hmem =>
        hvalues group (List.mem_cons_of_mem _ hmem)
      rw [List.flatMap_cons, List.length_append, Nat.add_assoc, List.append_assoc, valuesOf,
        List.flatMap_cons, List.append_assoc, populateGroups_group group hgroup, ← valuesOf,
        ih hrest, Option.map_some, List.flatMap_cons, List.append_assoc, List.length_append,
        counted, counted, List.map_cons, List.sum_cons]
      dsimp only
      have hkeys : (groups.map fun group => 1 + seen group.1).sum + seen ks + 1 + seen group.1 =
          1 + seen group.1 + (groups.map fun group => 1 + seen group.1).sum + seen ks := by omega
      rw [hkeys]

theorem length_valueRuns (vs : List V) :
    (valueRuns vs).length = if vs = [] then 0 else 1 := by
  rw [valueRuns]
  split_ifs <;> rfl

def frontRuns (lead : List V) (groups : List (Group K V)) (ks : List K) : SymbolsBuffer :=
  valueRuns lead ++ (groups.flatMap groupRuns ++ keyRuns ks)

theorem groupRuns_head {group : Group K V} {run : Run ℕ} {runs : SymbolsBuffer}
    (hruns : groupRuns group = run :: runs) : run.symbol = 0 ∧ (group.2.2 ≠ [] → runs ≠ []) := by
  obtain ⟨ks, k, vs⟩ := group
  cases ks with
  | nil =>
      obtain ⟨rfl, rfl⟩ := List.cons.inj hruns
      refine ⟨rfl, fun hvs => ?_⟩
      rw [valueRuns, if_neg hvs]
      exact List.cons_ne_nil _ _
  | cons k' ks =>
      obtain ⟨rfl, rfl⟩ := List.cons.inj hruns
      exact ⟨rfl, fun _ => List.cons_ne_nil _ _⟩

theorem groupRuns_ne_nil (group : Group K V) : groupRuns group ≠ [] :=
  List.append_ne_nil_of_right_ne_nil _ (List.cons_ne_nil _ _)

/-- The first run in front of the last key is that of the lead. -/
theorem frontRuns_head {lead : List V} {groups : List (Group K V)} {ks : List K} {run : Run ℕ}
    {runs : SymbolsBuffer} (hruns : frontRuns lead groups ks = run :: runs) :
    run.symbol = if lead = [] then 0 else 1 := by
  rw [frontRuns, valueRuns] at hruns
  split_ifs at hruns ⊢ with hlead
  · rw [List.nil_append] at hruns
    cases groups with
    | nil =>
        rw [List.flatMap_nil, List.nil_append, keyRuns] at hruns
        split_ifs at hruns
        exact congrArg Run.symbol (List.cons.inj hruns).1.symm
    | cons group groups =>
        obtain ⟨run', runs', hgroup⟩ := List.exists_cons_of_ne_nil (groupRuns_ne_nil group)
        rw [List.flatMap_cons, hgroup] at hruns
        rw [← (List.cons.inj hruns).1]
        exact (groupRuns_head hgroup).1
  · exact congrArg Run.symbol (List.cons.inj hruns).1.symm

def Parser.Fits (parser : Parser) (lead : List V) : Prop :=
  parser.processPrefix = true ∨ lead = [] ∧ parser.prefixSize = 0

theorem Parser.parseLong_eq {parser : Parser} {lead : List V} (hfits : parser.Fits lead)
    (lastSymbol : ℕ) :
    parser.parseLong (if lead = [] then 0 else 1) lastSymbol =
      some ((valueRuns lead).length, if lastSymbol = 1 then 2 else 1) := by
  rw [parseLong, length_valueRuns]
  rcases hfits with hprocess | ⟨hlead, hsize⟩
  · rw [if_pos hprocess]
    split_ifs <;> first | rfl | contradiction
  · simp [hlead, hsize]

theorem Parser.parse_long {parser : Parser} {sequence : List (Run ℕ)} {run last : Run ℕ}
    {middle : SymbolsBuffer} (hmiddle : middle ≠ [])
    (hbuffer : populateBuffer sequence parser.startIdx = run :: (middle ++ [last])) :
    parser.parse sequence = (parser.parseLong run.symbol last.symbol).map fun (first, second) =>
      ⟨true, first, second, run :: (middle ++ [last]), 0⟩ := by
  have hlong : ∃ run' run'' runs, middle ++ [last] = run' :: run'' :: runs := by
    match middle, hmiddle with
    | [run'], _ => exact ⟨run', last, [], rfl⟩
    | run' :: run'' :: runs, _ => exact ⟨run', run'', runs ++ [last], rfl⟩
  obtain ⟨run', run'', runs, hruns⟩ := hlong
  have hlast : (run' :: run'' :: runs).getLast (List.cons_ne_nil _ _) = last := by
    simp only [← hruns, List.getLast_concat]
  rw [parse, hbuffer, hruns]
  dsimp only
  rw [hlast]
  cases parser.parseLong run.symbol last.symbol <;> rfl

theorem frontRuns_eq_nil {lead : List V} {groups : List (Group K V)} {ks : List K}
    (hnil : frontRuns lead groups ks = []) : lead = [] ∧ groups = [] ∧ ks = [] := by
  obtain ⟨hlead, hrest⟩ := List.append_eq_nil_iff.mp hnil
  obtain ⟨hgroups, hkeys⟩ := List.append_eq_nil_iff.mp hrest
  refine ⟨?_, ?_, ?_⟩
  · by_contra hne
    rw [valueRuns, if_neg hne] at hlead
    exact List.cons_ne_nil _ _ hlead
  · cases groups with
    | nil => rfl
    | cons group groups =>
        rw [List.flatMap_cons] at hgroups
        exact absurd (List.append_eq_nil_iff.mp hgroups).1 (groupRuns_ne_nil group)
  · by_contra hne
    rw [keyRuns, if_neg hne] at hkeys
    exact List.cons_ne_nil _ _ hkeys

/-- A single run of keys. -/
theorem frontRuns_eq_singleton {groups : List (Group K V)} {ks : List K} {run : Run ℕ}
    (hvalues : ∀ group ∈ groups, group.2.2 ≠ []) (hrun : frontRuns ([] : List V) groups ks = [run]) :
    groups = [] ∧ ks ≠ [] := by
  rw [frontRuns, valueRuns, if_pos rfl, List.nil_append] at hrun
  cases groups with
  | nil =>
      refine ⟨rfl, fun hks => ?_⟩
      rw [hks] at hrun
      exact List.cons_ne_nil _ _ hrun.symm
  | cons group groups =>
      obtain ⟨run', runs, hgroup⟩ := List.exists_cons_of_ne_nil (groupRuns_ne_nil group)
      have hruns := (groupRuns_head hgroup).2 (hvalues group List.mem_cons_self)
      rw [List.flatMap_cons, hgroup, List.cons_append, List.cons_append] at hrun
      obtain ⟨hnil, -⟩ := List.append_eq_nil_iff.mp (List.cons.inj hrun).2
      exact absurd (List.append_eq_nil_iff.mp hnil).1 hruns

/-- A leaf whose last symbol is a key. -/
theorem Parser.parse_key {parser : Parser} {sequence : List (Run ℕ)} {lead : List V}
    {groups : List (Group K V)} {ks : List K} (hfits : parser.Fits lead)
    (hvalues : ∀ group ∈ groups, group.2.2 ≠ [])
    (hbuffer : populateBuffer sequence parser.startIdx = frontRuns lead groups ks ++ [⟨0, 1⟩]) :
    parser.parse sequence =
      if lead = [] ∧ groups = [] ∧ ks ≠ [] then none
      else some ⟨true, (valueRuns lead).length, 1, frontRuns lead groups ks ++ [⟨0, 1⟩], 0⟩ := by
  match hfront : frontRuns lead groups ks with
  | [] =>
      obtain ⟨rfl, rfl, rfl⟩ := frontRuns_eq_nil hfront
      rw [if_neg fun h => h.2.2 rfl, parse, hbuffer]
      rfl
  | [run] =>
      have hsymbol := frontRuns_head hfront
      rw [parse, hbuffer, hfront, length_valueRuns]
      dsimp only [List.cons_append, List.nil_append]
      by_cases hlead : lead = []
      · subst hlead
        obtain ⟨hgroups, hks⟩ := frontRuns_eq_singleton hvalues hfront
        rw [if_pos rfl] at hsymbol
        have hcases : ¬ (run.symbol = 0 ∧ 0 = 1) ∧ ¬ (run.symbol = 1 ∧ 0 = 0) := by omega
        rw [if_neg hcases.1, if_neg hcases.2, if_pos ⟨rfl, hgroups, hks⟩]
        rfl
      · rw [if_neg hlead] at hsymbol
        have hcases : ¬ (run.symbol = 0 ∧ 0 = 1) ∧ run.symbol = 1 ∧ 0 = 0 := by omega
        rw [if_neg hcases.1, if_pos hcases.2, if_neg hlead, if_neg fun h => hlead h.1]
        rfl
  | run :: run' :: runs =>
      have hsymbol := frontRuns_head hfront
      have hshape : ¬ (lead = [] ∧ groups = [] ∧ ks ≠ []) := by
        rintro ⟨rfl, rfl, hks⟩
        have hsingle : frontRuns ([] : List V) [] ks = [⟨0, ks.length⟩] := if_neg hks
        rw [hsingle] at hfront
        exact List.cons_ne_nil _ _ (List.cons.inj hfront).2.symm
      rw [hfront] at hbuffer
      rw [if_neg hshape, parse_long (List.cons_ne_nil run' runs) hbuffer, hsymbol,
        parseLong_eq hfits]
      rfl

/-- A leaf whose last symbol is a value of a key in it. -/
theorem Parser.parse_values {parser : Parser} {sequence : List (Run ℕ)} {lead : List V}
    {groups : List (Group K V)} {ks : List K} (hfits : parser.Fits lead) (n : ℕ)
    (hbuffer : populateBuffer sequence parser.startIdx =
      frontRuns lead groups ks ++ [⟨0, 1⟩, ⟨1, n⟩]) :
    parser.parse sequence =
      some ⟨true, (valueRuns lead).length, 2, frontRuns lead groups ks ++ [⟨0, 1⟩, ⟨1, n⟩], 0⟩ := by
  match hfront : frontRuns lead groups ks with
  | [] =>
      obtain ⟨rfl, rfl, rfl⟩ := frontRuns_eq_nil hfront
      rw [parse, hbuffer]
      rfl
  | run :: runs =>
      have hsymbol := frontRuns_head hfront
      have hsplit : run :: runs ++ [⟨0, 1⟩, ⟨1, n⟩] =
          run :: ((runs ++ [⟨0, 1⟩]) ++ [⟨1, n⟩]) := by
        rw [List.append_assoc]
        rfl
      rw [hfront, hsplit] at hbuffer
      rw [parse_long (List.append_ne_nil_of_right_ne_nil _ (List.cons_ne_nil _ _)) hbuffer, hsymbol,
        parseLong_eq hfits, hsplit]
      rfl

/-- The parser finds the lead and the last key with its values, except in a leaf of two or more keys
and nothing else. -/
theorem Parser.parse_groups {parser : Parser} {sequence : List (Run ℕ)} {lead : List V}
    {groups : List (Group K V)} {ks : List K} {vs : List V} (hfits : parser.Fits lead)
    (hvalues : ∀ group ∈ groups, group.2.2 ≠ [])
    (hbuffer : populateBuffer sequence parser.startIdx =
      frontRuns lead groups ks ++ ⟨0, 1⟩ :: valueRuns vs) :
    parser.parse sequence =
      if lead = [] ∧ groups = [] ∧ ks ≠ [] ∧ vs = [] then none
      else some ⟨true, (valueRuns lead).length, 1 + (valueRuns vs).length,
        frontRuns lead groups ks ++ ⟨0, 1⟩ :: valueRuns vs, 0⟩ := by
  by_cases hvs : vs = []
  · have hkey := parse_key hfits hvalues (hbuffer.trans (by rw [hvs]; rfl))
    have hcase : (lead = [] ∧ groups = [] ∧ ks ≠ [] ∧ vs = []) =
        (lead = [] ∧ groups = [] ∧ ks ≠ []) := by
      rw [eq_true hvs, and_true]
    have hruns : valueRuns vs = [] := if_pos hvs
    simp only [hcase, hruns]
    exact hkey
  · have hruns : valueRuns vs = [⟨1, vs.length⟩] := if_neg hvs
    rw [hruns] at hbuffer ⊢
    rw [if_neg fun h => hvs h.2.2.2]
    exact parse_values hfits vs.length hbuffer

/-- A leaf of values. -/
theorem Parser.parse_lead {parser : Parser} {sequence : List (Run ℕ)} {lead : List V}
    (hbuffer : populateBuffer sequence parser.startIdx = valueRuns lead) :
    parser.parse sequence = some ⟨true, (valueRuns lead).length, 0, valueRuns lead, 0⟩ := by
  rw [parse, hbuffer, valueRuns]
  split_ifs <;> rfl

structure Leaf.Shaped (leaf : Leaf K V) (shape : Shape K V) : Prop where
  filled : Shape.Filled shape.groups
  buffer : populateBuffer leaf.symbolSequence 0 =
    valueRuns shape.lead ++ shape.groups.flatMap groupRuns
  keys : leaf.keys = keysOf shape.groups
  values : leaf.values = shape.lead ++ valuesOf shape.groups

theorem filterMap_values (vs : List V) :
    (vs.map Item.value).filterMap (Item.key? : Item K V → Option K) = [] ∧
      (vs.map Item.value).filterMap (Item.value? : Item K V → Option V) = vs := by
  refine ⟨?_, ?_⟩
  · rw [List.filterMap_map]
    exact List.filterMap_eq_nil_iff.mpr fun _ _ => rfl
  · rw [List.filterMap_map]
    exact List.filterMap_some

theorem filterMap_keys (ks : List K) :
    (ks.map Item.key).filterMap (Item.key? : Item K V → Option K) = ks ∧
      (ks.map Item.key).filterMap (Item.value? : Item K V → Option V) = [] := by
  refine ⟨?_, ?_⟩
  · rw [List.filterMap_map]
    exact List.filterMap_some
  · rw [List.filterMap_map]
    exact List.filterMap_eq_nil_iff.mpr fun _ _ => rfl

theorem filterMap_groups (groups : List (Group K V)) :
    (groups.flatMap groupItems).filterMap Item.key? = keysOf groups ∧
      (groups.flatMap groupItems).filterMap Item.value? = valuesOf groups := by
  induction groups with
  | nil => exact ⟨rfl, rfl⟩
  | cons group groups ih =>
      obtain ⟨ks, k, vs⟩ := group
      have hkey : (Item.key k :: vs.map Item.value).filterMap Item.key? =
          k :: (vs.map Item.value).filterMap Item.key? := List.filterMap_cons_some rfl
      have hvalue : (Item.key k :: vs.map Item.value).filterMap Item.value? =
          (vs.map Item.value).filterMap Item.value? := List.filterMap_cons_none rfl
      rw [List.flatMap_cons, List.filterMap_append, List.filterMap_append, ih.1, ih.2, groupItems,
        List.filterMap_append, List.filterMap_append, (filterMap_keys ks).1, (filterMap_keys ks).2,
        hkey, hvalue, (filterMap_values vs).1, (filterMap_values vs).2]
      exact ⟨rfl, rfl⟩

theorem Leaf.Holds.shaped {leaf : Leaf K V} {items : List (Item K V)} (hholds : leaf.Holds items) :
    leaf.Shaped (Shape.of items) := by
  have hfilled := Shape.of_filled items
  have hgroups := filterMap_groups (Shape.of items).groups
  have hlead := filterMap_values (K := K) (Shape.of items).lead
  refine ⟨hfilled, ?_, ?_, ?_⟩
  · rw [populateBuffer_eq hholds.runs_pos, hholds.symbols, ← Shape.bufferOf_items hfilled,
      Shape.items_of]
  · rw [hholds.keys]
    conv => lhs; rw [← Shape.items_of items, Shape.items, List.filterMap_append, hlead.1, hgroups.1]
    rfl
  · rw [hholds.values]
    conv => lhs; rw [← Shape.items_of items, Shape.items, List.filterMap_append, hlead.2, hgroups.2]

theorem take_lead (lead : List V) (runs : SymbolsBuffer) (values : List V) :
    (if (valueRuns lead).length > 0 then
        (lead ++ values).take ((valueRuns lead ++ runs).getD 0 ⟨0, 0⟩).length
      else []) = lead := by
  rw [valueRuns]
  split_ifs with hlead hpos hpos
  · exact absurd hpos (Nat.lt_irrefl 0)
  · exact hlead.symm
  · exact List.take_left
  · exact absurd Nat.zero_lt_one hpos

namespace Scanner

variable [Inhabited K] {scanner : Scanner K V} {lead : List V}

theorem buildIndex_lead (hleaf : scanner.leaf.Shaped ⟨lead, []⟩)
    (hstart : scanner.parser.startIdx = 0) :
    scanner.buildIndex (0, 0) = some { scanner with
      parser := ⟨true, (valueRuns lead).length, 0, valueRuns lead, 0⟩
      lead := lead
      keys := []
      values := []
      hasSuffix := false
      suffix := []
      suffixStart := lead.length } := by
  have hbuffer := hleaf.buffer
  have hvalues := hleaf.values
  have hlead := take_lead lead [] []
  rw [List.flatMap_nil, List.append_nil, ← hstart] at hbuffer
  rw [valuesOf, List.flatMap_nil, List.append_nil] at hvalues
  rw [List.append_nil, List.append_nil] at hlead
  rw [buildIndex, Parser.parse_lead hbuffer]
  dsimp only [Option.bind_eq_bind, Option.bind_some]
  rw [hvalues, hlead, Nat.sub_zero, Nat.sub_self, populateGroups]
  dsimp only [Option.bind_some]
  rw [if_neg (Nat.zero_ne_add_one 1), if_neg Nat.zero_ne_one, List.take_zero, Nat.zero_add]
  rfl

/-- The scanner in a leaf with a key. -/
theorem buildIndex_groups {groups : List (Group K V)} {ks : List K} {k : K} {vs : List V}
    (hleaf : scanner.leaf.Shaped ⟨lead, groups ++ [(ks, k, vs)]⟩)
    (hfits : scanner.parser.Fits lead) (hstart : scanner.parser.startIdx = 0) :
    scanner.buildIndex (0, 0) =
      if lead = [] ∧ groups = [] ∧ ks ≠ [] ∧ vs = [] then none
      else some { scanner with
        parser := ⟨true, (valueRuns lead).length, 1 + (valueRuns vs).length,
          frontRuns lead groups ks ++ ⟨0, 1⟩ :: valueRuns vs, 0⟩
        lead := lead
        keys := scanner.leaf.keys.take (counted groups + seen ks)
        values := groups.flatMap groupValues ++ ks.map fun _ => []
        hasSuffix := true
        suffixKey := scanner.leaf.keys.getD (counted groups + seen ks) default
        suffix := vs
        suffixStart := lead.length + (valuesOf groups).length } := by
  have hgroups : ∀ group ∈ groups, group.2.2 ≠ [] := fun group hmem =>
    hleaf.filled group (by rwa [List.dropLast_concat])
  have hbuffer := hleaf.buffer
  have hvalues : scanner.leaf.values = lead ++ (valuesOf groups ++ vs) := by
    rw [hleaf.values, valuesOf, List.flatMap_append, List.flatMap_singleton]
    rfl
  have hruns : valueRuns lead ++ (groups ++ [(ks, k, vs)]).flatMap groupRuns =
      frontRuns lead groups ks ++ ⟨0, 1⟩ :: valueRuns vs := by
    rw [List.flatMap_append, List.flatMap_singleton, frontRuns, groupRuns, List.append_assoc,
      List.append_assoc]
  rw [hruns] at hbuffer
  have hbody : frontRuns lead groups ks ++ ⟨0, 1⟩ :: valueRuns vs =
      valueRuns lead ++ (groups.flatMap groupRuns ++ (keyRuns ks ++ ⟨0, 1⟩ :: valueRuns vs)) := by
    rw [frontRuns, List.append_assoc, List.append_assoc]
  have hcount : (frontRuns lead groups ks ++ ⟨0, 1⟩ :: valueRuns vs).length -
      (1 + (valueRuns vs).length) - (valueRuns lead).length =
        (groups.flatMap groupRuns).length + (keyRuns ks).length := by
    rw [hbody, List.length_append, List.length_append, List.length_append, List.length_cons]
    omega
  have hparse : populateBuffer scanner.leaf.symbolSequence scanner.parser.startIdx =
      frontRuns lead groups ks ++ ⟨0, 1⟩ :: valueRuns vs := by
    rw [hstart, hbuffer]
  rw [buildIndex, Parser.parse_groups hfits hgroups hparse]
  split_ifs with hcase
  · rfl
  · dsimp only [Option.bind_eq_bind, Option.bind_some]
    rw [hcount, hvalues, hbody, take_lead, List.drop_left, Nat.zero_add, List.drop_left,
      populateGroups_groups hgroups]
    dsimp only [Option.bind_some]
    rw [List.drop_zero, Nat.zero_add, length_valueRuns vs]
    by_cases hvs : vs = []
    · rw [if_pos hvs, if_neg (by omega), if_pos rfl, hvs]
    · have hlast : (valueRuns lead ++ (groups.flatMap groupRuns ++
          (keyRuns ks ++ ⟨0, 1⟩ :: valueRuns vs))).length - (1 + 1) + 1 =
            (frontRuns lead groups ks ++ [(⟨0, 1⟩ : Run ℕ)]).length := by
        rw [← hbody, valueRuns, if_neg hvs, List.length_append, List.length_append,
          List.length_cons, List.length_singleton, List.length_singleton, Nat.add_sub_cancel]
      have hrun : (valueRuns lead ++ (groups.flatMap groupRuns ++
          (keyRuns ks ++ ⟨0, 1⟩ :: valueRuns vs))).getD
            (frontRuns lead groups ks ++ [(⟨0, 1⟩ : Run ℕ)]).length ⟨0, 0⟩ = ⟨1, vs.length⟩ := by
        rw [← hbody, valueRuns, if_neg hvs, List.append_cons, List.getD_append_right _ _ _ _ le_rfl,
          Nat.sub_self]
        rfl
      rw [if_neg hvs, if_pos rfl, hlast, hrun, ← List.drop_drop, List.drop_left, List.drop_left,
        List.take_length]

end Scanner

end Memoria.Multimap

import Mathlib.Algebra.Order.Ring.Int
import Mathlib.Data.List.Basic
import Mathlib.Tactic.Ring

/-!
# Walks over an index with levels

The levels of an index stand for blocks of its lowest level, and every entry takes the state of a
search over the blocks it stands for. A walk climbs until an entry is hit and goes down from there.
It ends at the block of the lowest level where the search is over, with the state in front of it.
-/

namespace Memoria.Lib

variable {σ ε : Type} (hits : σ → ε → Bool) (pass : σ → ε → σ)

def scan : σ → List ε → ℕ × σ
  | s, [] => (0, s)
  | s, e :: es =>
    if hits s e then (0, s)
    else
      let rest := scan (pass s e) es
      (rest.1 + 1, rest.2)

variable {hits pass}

/-- A loop along known states passes the entries in front of the first hit. -/
theorem scan_spec (T : ℕ → σ) (H : ℕ → Bool) {es : List ε}
    (h : ∀ c e, es[c]? = some e → hits (T c) e = H (c + 1) ∧ pass (T c) e = T (c + 1)) :
    ∃ m ≤ es.length, scan hits pass (T 0) es = (m, T m) ∧
      (∀ c < m, H (c + 1) = false) ∧ (m < es.length → H (m + 1) = true) := by
  induction es generalizing T H with
  | nil => exact ⟨0, Nat.le_refl 0, rfl, fun c hc => absurd hc (Nat.not_lt_zero c), fun h => absurd h (Nat.lt_irrefl 0)⟩
  | cons e es ih =>
      obtain ⟨hhit, hpass⟩ := h 0 e rfl
      rw [scan]
      cases hstop : H 1 with
      | true =>
          rw [if_pos (hhit.trans hstop)]
          exact ⟨0, Nat.zero_le _, rfl, fun c hc => absurd hc (Nat.not_lt_zero c), fun _ => hstop⟩
      | false =>
          rw [if_neg (by rw [hhit, hstop]; exact Bool.false_ne_true)]
          obtain ⟨m, hm, hscan, hmiss, hend⟩ :=
            ih (fun c => T (c + 1)) (fun c => H (c + 1)) (fun c e he => h (c + 1) e he)
          refine ⟨m + 1, Nat.succ_le_succ hm, ?_, ?_, fun hlt => hend (Nat.lt_of_succ_lt_succ hlt)⟩
          · rw [hpass]
            simp only [hscan]
          · intro c hc
            cases c with
            | zero => exact hstop
            | succ c => exact hmiss c (Nat.lt_of_succ_lt_succ hc)

theorem scan_le (s : σ) (es : List ε) : (scan hits pass s es).1 ≤ es.length := by
  induction es generalizing s with
  | nil => exact Nat.le_refl 0
  | cons e es ih =>
      rw [scan]
      split_ifs
      · exact Nat.zero_le _
      · exact Nat.succ_le_succ (ih (pass s e))

/-- A row with a hit is all that is read. -/
theorem scan_append_of_lt {s : σ} {es : List ε} (h : (scan hits pass s es).1 < es.length)
    (rest : List ε) : scan hits pass s (es ++ rest) = scan hits pass s es := by
  induction es generalizing s with
  | nil => exact absurd h (Nat.not_lt_zero _)
  | cons e es ih =>
      simp only [scan, List.cons_append, List.length_cons] at h ⊢
      split_ifs at h ⊢ with hhit
      · rfl
      · rw [ih (Nat.lt_of_succ_lt_succ h)]

/-- A row whose entries are all missed is passed. -/
theorem scan_append {s : σ} {es : List ε} (h : (scan hits pass s es).1 = es.length)
    (rest : List ε) :
    scan hits pass s (es ++ rest) =
      (es.length + (scan hits pass (scan hits pass s es).2 rest).1,
        (scan hits pass (scan hits pass s es).2 rest).2) := by
  induction es generalizing s with
  | nil => simp only [scan, List.nil_append, List.length_nil, Nat.zero_add]
  | cons e es ih =>
      simp only [scan, List.cons_append, List.length_cons] at h ⊢
      split_ifs at h ⊢ with hhit
      simp only [Nat.add_right_cancel_iff] at h
      rw [ih h, Nat.add_right_comm]

section Walks

variable (hits pass) (branching : ℕ) (sizes : List ℕ) (entry : ℕ → ℕ → ε)

def walkIndexFw : ℕ → ℕ → ℕ → σ → Option (Option ℕ × σ)
  | 0, _, _, _ => none
  | fuel + 1, start, level, s =>
    let levelSize := sizes.getD level 0
    let branchEnd := (start / branching + 1) * branching
    let branchLimit := if branchEnd > levelSize then levelSize else branchEnd
    let found := scan hits pass s ((List.range' start (branchLimit - start)).map (entry level))
    let c := start + found.1
    if c < branchLimit then
      if level + 1 < sizes.length then walkIndexFw fuel (c * branching) (level + 1) found.2
      else some (some c, found.2)
    else if 0 < level then walkIndexFw fuel (branchEnd / branching) (level - 1) found.2
    else some (none, found.2)

def walkIndexBw : ℕ → ℤ → ℕ → σ → Option (Option ℤ × σ)
  | 0, _, _, _ => none
  | fuel + 1, start, level, s =>
    if 0 ≤ start then
      let levelSize : ℤ := sizes.getD level 0
      let branchEnd := start / branching * branching - 1
      let first := if start ≥ levelSize then levelSize - 1 else start
      let found := scan hits pass s
        ((List.range (first - branchEnd).toNat).map fun (k : ℕ) => entry level (first - k).toNat)
      let c := first - found.1
      if c > branchEnd then
        if level + 1 < sizes.length then
          walkIndexBw fuel ((c + 1) * branching - 1) (level + 1) found.2
        else some (some c, found.2)
      else if 0 < level then walkIndexBw fuel (branchEnd / branching) (level - 1) found.2
      else some (none, found.2)
    else some (none, s)

def findIndexFrom : ℕ → ℕ → σ → Option ℕ × σ
  | 0, _, s => (none, s)
  | n + 1, branchStart, s =>
    let level := sizes.length - (n + 1)
    let levelSize := sizes.getD level 0
    let found := scan hits pass s
      ((List.range' branchStart (levelSize - branchStart)).map (entry level))
    let c := branchStart + found.1
    if c < levelSize then
      if level + 1 < sizes.length then findIndexFrom n (c * branching) found.2
      else (some c, found.2)
    else (none, found.2)

def findIndex (s : σ) : Option ℕ × σ :=
  findIndexFrom hits pass branching sizes entry (sizes.length - 1) 0 s

end Walks

section Levels

variable (branching : ℕ) (sizes : List ℕ)

def levelWidth (level : ℕ) : ℕ := branching ^ (sizes.length - 1 - level)

def lowestSize : ℕ := sizes.getD (sizes.length - 1) 0

def levelBound (level c : ℕ) : ℕ := min (c * levelWidth branching sizes level) (lowestSize sizes)

structure LevelsCover : Prop where
  branching_pos : 0 < branching
  length_pos : 0 < sizes.length
  root_le : sizes.getD 0 0 ≤ 1
  lt_iff : ∀ level < sizes.length, ∀ c,
    c < sizes.getD level 0 ↔ c * levelWidth branching sizes level < lowestSize sizes

variable {branching sizes}

theorem LevelsCover.root_le_branching (h : LevelsCover branching sizes) :
    sizes.getD 0 0 ≤ branching :=
  h.root_le.trans h.branching_pos

theorem levelWidth_succ {level : ℕ} (h : level + 1 < sizes.length) :
    levelWidth branching sizes level = branching * levelWidth branching sizes (level + 1) := by
  rw [levelWidth, levelWidth, ← Nat.pow_succ']
  congr 1
  omega

theorem levelWidth_lowest : levelWidth branching sizes (sizes.length - 1) = 1 := by
  rw [levelWidth, Nat.sub_self, Nat.pow_zero]

/-- The children of the entries in front of `c` are those in front of `c * branching`. -/
theorem levelBound_child {level : ℕ} (h : level + 1 < sizes.length) (c : ℕ) :
    levelBound branching sizes (level + 1) (c * branching) = levelBound branching sizes level c := by
  rw [levelBound, levelBound, levelWidth_succ h, Nat.mul_assoc]

theorem levelBound_lowest (c : ℕ) :
    levelBound branching sizes (sizes.length - 1) c = min c (lowestSize sizes) := by
  rw [levelBound, levelWidth_lowest, Nat.mul_one]

theorem LevelsCover.bound_eq_of_le (h : LevelsCover branching sizes) {level c : ℕ}
    (hlevel : level < sizes.length) (hc : sizes.getD level 0 ≤ c) :
    levelBound branching sizes level c = lowestSize sizes := by
  apply Nat.min_eq_right
  exact Nat.le_of_not_lt fun hlt => absurd ((h.lt_iff level hlevel c).mpr hlt) (Nat.not_lt.mpr hc)

theorem LevelsCover.bound_of_lt (h : LevelsCover branching sizes) {level c : ℕ}
    (hlevel : level < sizes.length) (hc : c < sizes.getD level 0) :
    levelBound branching sizes level c = c * levelWidth branching sizes level :=
  Nat.min_eq_left (Nat.le_of_lt ((h.lt_iff level hlevel c).mp hc))

end Levels

section Forward

variable {branching : ℕ} {sizes : List ℕ} {entry : ℕ → ℕ → ε} {T : ℕ → σ} {H : ℕ → Bool}
variable {origin : ℕ}

variable (hits pass branching sizes entry) in
/-- Every entry behind block `origin` takes the state `T` over its blocks, and is hit when `H` holds
behind them. -/
def TakesFw (T : ℕ → σ) (H : ℕ → Bool) (origin : ℕ) : Prop :=
  ∀ level < sizes.length, ∀ c < sizes.getD level 0,
    origin ≤ c * levelWidth branching sizes level →
    hits (T (levelBound branching sizes level c)) (entry level c) =
        H (levelBound branching sizes level (c + 1)) ∧
      pass (T (levelBound branching sizes level c)) (entry level c) =
        T (levelBound branching sizes level (c + 1))

inductive EndsFw (T : ℕ → σ) (H : ℕ → Bool) (blocks : ℕ) : Option ℕ × σ → Prop where
  | hit (i : ℕ) (lt : i < blocks) (missed : H i = false) (stop : H (i + 1) = true) :
      EndsFw T H blocks (some i, T i)
  | miss (missed : H blocks = false) : EndsFw T H blocks (none, T blocks)

theorem EndsFw.of_lowest {c : ℕ} (hc : c < sizes.getD (sizes.length - 1) 0)
    (hmiss : H (levelBound branching sizes (sizes.length - 1) c) = false)
    (hhit : H (levelBound branching sizes (sizes.length - 1) (c + 1)) = true) :
    EndsFw T H (lowestSize sizes)
      (some c, T (levelBound branching sizes (sizes.length - 1) c)) := by
  have hle : c + 1 ≤ lowestSize sizes := hc
  rw [levelBound_lowest, Nat.min_eq_left hle] at hhit
  rw [levelBound_lowest, Nat.min_eq_left (Nat.le_of_succ_le hle)] at hmiss ⊢
  exact .hit c hc hmiss hhit

theorem TakesFw.scan (h : TakesFw hits pass branching sizes entry T H origin) {level start limit : ℕ}
    (hlevel : level < sizes.length) (hlimit : limit ≤ sizes.getD level 0)
    (horigin : origin ≤ start * levelWidth branching sizes level)
    (hstart : H (levelBound branching sizes level start) = false) :
    ∃ m ≤ limit - start,
      Lib.scan hits pass (T (levelBound branching sizes level start))
        ((List.range' start (limit - start)).map (entry level)) =
          (m, T (levelBound branching sizes level (start + m))) ∧
      H (levelBound branching sizes level (start + m)) = false ∧
      (m < limit - start → H (levelBound branching sizes level (start + m + 1)) = true) := by
  have hstates : ∀ c e, ((List.range' start (limit - start)).map (entry level))[c]? = some e →
      hits (T (levelBound branching sizes level (start + c))) e =
          H (levelBound branching sizes level (start + (c + 1))) ∧
        pass (T (levelBound branching sizes level (start + c))) e =
          T (levelBound branching sizes level (start + (c + 1))) := by
    intro c e he
    rw [List.getElem?_map, Option.map_eq_some_iff] at he
    obtain ⟨i, hi, rfl⟩ := he
    obtain ⟨hc, hi⟩ := List.getElem?_eq_some_iff.mp hi
    rw [List.getElem_range', Nat.one_mul] at hi
    rw [List.length_range'] at hc
    subst hi
    apply h level hlevel (start + c) (by omega)
    exact horigin.trans (Nat.mul_le_mul_right _ (Nat.le_add_right start c))
  obtain ⟨m, hm, hscan, hmiss, hend⟩ :=
    scan_spec (fun c => T (levelBound branching sizes level (start + c)))
      (fun c => H (levelBound branching sizes level (start + c))) hstates
  rw [List.length_map, List.length_range'] at hm hend
  refine ⟨m, hm, hscan, ?_, hend⟩
  cases m with
  | zero => exact hstart
  | succ m => exact hmiss m (Nat.lt_succ_self m)

variable (hcover : LevelsCover branching sizes)

include hcover

/-- One branch of a level: an entry is hit, or the walk is behind the branch. -/
theorem TakesFw.branch (h : TakesFw hits pass branching sizes entry T H origin) {level start limit : ℕ}
    (hlevel : level < sizes.length) {branchEnd : ℕ} (hbranch : start < branchEnd)
    (hlimit : limit = if branchEnd > sizes.getD level 0 then sizes.getD level 0 else branchEnd)
    (horigin : origin ≤ start * levelWidth branching sizes level)
    (hstart : H (levelBound branching sizes level start) = false) :
    ∃ m, Lib.scan hits pass (T (levelBound branching sizes level start))
        ((List.range' start (limit - start)).map (entry level)) =
          (m, T (levelBound branching sizes level (start + m))) ∧
      H (levelBound branching sizes level (start + m)) = false ∧
      (start + m < limit ∧ start + m < sizes.getD level 0 ∧
          H (levelBound branching sizes level (start + m + 1)) = true ∨
        ¬start + m < limit ∧ levelBound branching sizes level (start + m) =
          levelBound branching sizes level branchEnd) := by
  have hle : limit ≤ sizes.getD level 0 := by
    rw [hlimit]
    split_ifs <;> omega
  obtain ⟨m, hm, hscan, hmiss, hend⟩ := h.scan hlevel hle horigin hstart
  refine ⟨m, hscan, hmiss, ?_⟩
  by_cases hlt : start + m < limit
  · exact .inl ⟨hlt, by omega, hend (by omega)⟩
  · refine .inr ⟨hlt, ?_⟩
    by_cases hlast : branchEnd > sizes.getD level 0
    · rw [if_pos hlast] at hlimit
      rw [hcover.bound_eq_of_le hlevel (by omega), hcover.bound_eq_of_le hlevel (Nat.le_of_lt hlast)]
    · rw [if_neg hlast] at hlimit
      congr 1
      omega

/-- From an entry that is hit the walk goes down to the block. -/
theorem TakesFw.descend (h : TakesFw hits pass branching sizes entry T H origin) {level c fuel : ℕ}
    (hlevel : level < sizes.length) (hfuel : sizes.length ≤ level + 1 + fuel)
    (hc : c < sizes.getD level 0) (horigin : origin ≤ c * levelWidth branching sizes level)
    (hmiss : H (levelBound branching sizes level c) = false)
    (hhit : H (levelBound branching sizes level (c + 1)) = true) :
    ∃ out, (if level + 1 < sizes.length then
        walkIndexFw hits pass branching sizes entry fuel (c * branching) (level + 1)
          (T (levelBound branching sizes level c))
      else some (some c, T (levelBound branching sizes level c))) = some out ∧
      EndsFw T H (lowestSize sizes) out := by
  have hpos := hcover.branching_pos
  induction fuel generalizing level c with
  | zero =>
      have hlowest : level = sizes.length - 1 := by omega
      rw [if_neg (by omega)]
      subst hlowest
      exact ⟨_, rfl, .of_lowest hc hmiss hhit⟩
  | succ fuel ih =>
      split_ifs with hdeeper
      · rw [levelWidth_succ hdeeper, ← Nat.mul_assoc] at horigin
        rw [← levelBound_child hdeeper] at hmiss hhit ⊢
        have hbranch : c * branching < (c + 1) * branching := by
          rw [Nat.add_one_mul]
          omega
        obtain ⟨m, hscan, hmiss', hend⟩ := h.branch hcover hdeeper hbranch rfl horigin hmiss
        simp only [walkIndexFw, Nat.mul_div_cancel _ hpos, hscan]
        obtain ⟨hlt, hsize, hstop⟩ | ⟨-, hbound⟩ := hend
        · rw [if_pos hlt]
          exact ih hdeeper (by omega) hsize
            (horigin.trans (Nat.mul_le_mul_right _ (Nat.le_add_right _ m))) hmiss' hstop
        · rw [hbound, hhit] at hmiss'
          exact Bool.noConfusion hmiss'
      · have hlowest : level = sizes.length - 1 := by omega
        subst hlowest
        exact ⟨_, rfl, .of_lowest hc hmiss hhit⟩

/-- The walk from a place of a level ends at the block where the search is over. -/
theorem TakesFw.walk (h : TakesFw hits pass branching sizes entry T H origin)
    {level start fuel : ℕ} (hlevel : level < sizes.length)
    (hfuel : level + sizes.length < fuel)
    (horigin : origin ≤ start * levelWidth branching sizes level)
    (hmiss : H (levelBound branching sizes level start) = false) :
    ∃ out, walkIndexFw hits pass branching sizes entry fuel start level
        (T (levelBound branching sizes level start)) = some out ∧
      EndsFw T H (lowestSize sizes) out := by
  have hpos := hcover.branching_pos
  induction level generalizing start fuel with
  | zero =>
      obtain ⟨fuel, rfl⟩ := Nat.exists_eq_add_one_of_ne_zero (by omega : fuel ≠ 0)
      have hbranch : start < (start / branching + 1) * branching := by
        rw [Nat.mul_comm]
        exact Nat.lt_mul_div_succ start hpos
      obtain ⟨m, hscan, hmiss', hend⟩ := h.branch hcover hlevel hbranch rfl horigin hmiss
      simp only [walkIndexFw, hscan]
      obtain ⟨hlt, hsize, hstop⟩ | ⟨hnot, hbound⟩ := hend
      · rw [if_pos hlt]
        exact h.descend hcover hlevel (by omega) hsize
          (horigin.trans (Nat.mul_le_mul_right _ (Nat.le_add_right _ m))) hmiss' hstop
      · have hroot : sizes.getD 0 0 ≤ (start / branching + 1) * branching :=
          hcover.root_le_branching.trans (Nat.le_mul_of_pos_left _ (Nat.succ_pos _))
        rw [hcover.bound_eq_of_le hlevel hroot] at hbound
        rw [hbound] at hmiss' ⊢
        rw [if_neg hnot, if_neg (Nat.lt_irrefl 0)]
        exact ⟨_, rfl, .miss hmiss'⟩
  | succ level ih =>
      obtain ⟨fuel, rfl⟩ := Nat.exists_eq_add_one_of_ne_zero (by omega : fuel ≠ 0)
      have hbranch : start < (start / branching + 1) * branching := by
        rw [Nat.mul_comm]
        exact Nat.lt_mul_div_succ start hpos
      obtain ⟨m, hscan, hmiss', hend⟩ := h.branch hcover hlevel hbranch rfl horigin hmiss
      simp only [walkIndexFw, hscan]
      obtain ⟨hlt, hsize, hstop⟩ | ⟨hnot, hbound⟩ := hend
      · rw [if_pos hlt]
        exact h.descend hcover hlevel (by omega) hsize
          (horigin.trans (Nat.mul_le_mul_right _ (Nat.le_add_right _ m))) hmiss' hstop
      · rw [levelBound_child hlevel] at hbound
        rw [hbound] at hmiss' ⊢
        rw [if_neg hnot, if_pos (Nat.succ_pos level), Nat.mul_div_cancel _ hpos,
          Nat.add_sub_cancel]
        apply ih (by omega) (by omega) _ hmiss'
        rw [levelWidth_succ hlevel, ← Nat.mul_assoc]
        exact horigin.trans (Nat.mul_le_mul_right _ (Nat.le_of_lt hbranch))

/-- The search from the level under the root on. -/
theorem TakesFw.find (h : TakesFw hits pass branching sizes entry T H 0) {n start : ℕ}
    (hn : 0 < n) (hlevel : n ≤ sizes.length)
    (hmiss : H (levelBound branching sizes (sizes.length - n) start) = false) :
    EndsFw T H (lowestSize sizes) (findIndexFrom hits pass branching sizes entry n start
      (T (levelBound branching sizes (sizes.length - n) start))) := by
  induction n generalizing start with
  | zero => exact absurd hn (Nat.lt_irrefl 0)
  | succ n ih =>
      have hlt : sizes.length - (n + 1) < sizes.length := by omega
      obtain ⟨m, hm, hscan, hmiss', hend⟩ := h.scan hlt (Nat.le_refl _) (Nat.zero_le _) hmiss
      simp only [findIndexFrom, hscan]
      by_cases hfound : start + m < sizes.getD (sizes.length - (n + 1)) 0
      · rw [if_pos hfound]
        have hstop := hend (by omega)
        split_ifs with hdeeper
        · have hnext : sizes.length - (n + 1) + 1 = sizes.length - n := by omega
          rw [← levelBound_child hdeeper, hnext] at hmiss' ⊢
          exact ih (by omega) (by omega) hmiss'
        · obtain rfl : n = 0 := by omega
          exact .of_lowest hfound hmiss' hstop
      · rw [if_neg hfound]
        rw [hcover.bound_eq_of_le hlt (Nat.le_of_not_lt hfound)] at hmiss' ⊢
        exact .miss hmiss'

/-- From the root down. -/
theorem TakesFw.findIndex (h : TakesFw hits pass branching sizes entry T H 0)
    (hlength : 1 < sizes.length) (hmiss : H 0 = false) :
    EndsFw T H (lowestSize sizes) (findIndex hits pass branching sizes entry (T 0)) := by
  have hbound (level : ℕ) : levelBound branching sizes level 0 = 0 := by
    rw [levelBound, Nat.zero_mul, Nat.zero_min]
  have hends := h.find hcover (Nat.sub_pos_of_lt hlength) (Nat.sub_le _ _)
    (by rw [hbound]; exact hmiss)
  rwa [hbound] at hends

/-- From a block on. -/
theorem TakesFw.walkIndex (h : TakesFw hits pass branching sizes entry T H origin) {fuel : ℕ}
    (hfuel : 2 * sizes.length ≤ fuel) (horigin : origin ≤ lowestSize sizes)
    (hmiss : H origin = false) :
    ∃ out, walkIndexFw hits pass branching sizes entry fuel origin (sizes.length - 1) (T origin) =
      some out ∧ EndsFw T H (lowestSize sizes) out := by
  have hpos := hcover.length_pos
  have hbound : levelBound branching sizes (sizes.length - 1) origin = origin := by
    rw [levelBound_lowest, Nat.min_eq_left horigin]
  have hwalk := h.walk hcover (Nat.sub_one_lt_of_lt hpos)
    (by omega : sizes.length - 1 + sizes.length < fuel)
    (by rw [levelWidth_lowest, Nat.mul_one]) (by rw [hbound]; exact hmiss)
  rwa [hbound] at hwalk

end Forward

section Backward

variable {branching : ℕ} {sizes : List ℕ} {entry : ℕ → ℕ → ε} {T : ℕ → σ} {H : ℕ → Bool}
variable {origin : ℕ}

variable (hits pass branching sizes entry) in
/-- Every entry in front of block `origin` takes the state `T` back over its blocks, and is hit when
`H` holds in front of them. -/
def TakesBw (T : ℕ → σ) (H : ℕ → Bool) (origin : ℕ) : Prop :=
  ∀ level < sizes.length, ∀ c, (c + 1) * levelWidth branching sizes level ≤ origin →
    hits (T ((c + 1) * levelWidth branching sizes level)) (entry level c) =
        H (c * levelWidth branching sizes level) ∧
      pass (T ((c + 1) * levelWidth branching sizes level)) (entry level c) =
        T (c * levelWidth branching sizes level)

inductive EndsBw (T : ℕ → σ) (H : ℕ → Bool) (origin : ℕ) : Option ℤ × σ → Prop where
  | hit (i : ℕ) (lt : i < origin) (missed : H (i + 1) = false) (stop : H i = true) :
      EndsBw T H origin (some i, T (i + 1))
  | miss (missed : H 0 = false) : EndsBw T H origin (none, T 0)

theorem EndsBw.of_lowest {level c : ℕ} (hlast : ¬level + 1 < sizes.length)
    (hc : (c + 1) * levelWidth branching sizes level ≤ origin)
    (hmiss : H ((c + 1) * levelWidth branching sizes level) = false)
    (hhit : H (c * levelWidth branching sizes level) = true) :
    EndsBw T H origin (some (c : ℤ), T ((c + 1) * levelWidth branching sizes level)) := by
  have hwidth : levelWidth branching sizes level = 1 := by
    rw [levelWidth, show sizes.length - 1 - level = 0 by omega, Nat.pow_zero]
  rw [hwidth, Nat.mul_one] at hc hmiss hhit ⊢
  exact .hit c hc hmiss hhit

theorem TakesBw.scan (h : TakesBw hits pass branching sizes entry T H origin) {level a count : ℕ}
    (hlevel : level < sizes.length) (hcount : count ≤ a + 1)
    (horigin : (a + 1) * levelWidth branching sizes level ≤ origin)
    (hstart : H ((a + 1) * levelWidth branching sizes level) = false) :
    ∃ m ≤ count,
      Lib.scan hits pass (T ((a + 1) * levelWidth branching sizes level))
        ((List.range count).map fun k => entry level (a - k)) =
          (m, T ((a + 1 - m) * levelWidth branching sizes level)) ∧
      H ((a + 1 - m) * levelWidth branching sizes level) = false ∧
      (m < count → H ((a - m) * levelWidth branching sizes level) = true) := by
  have hstates : ∀ k e, ((List.range count).map fun k => entry level (a - k))[k]? = some e →
      hits (T ((a + 1 - k) * levelWidth branching sizes level)) e =
          H ((a + 1 - (k + 1)) * levelWidth branching sizes level) ∧
        pass (T ((a + 1 - k) * levelWidth branching sizes level)) e =
          T ((a + 1 - (k + 1)) * levelWidth branching sizes level) := by
    intro k e he
    rw [List.getElem?_map, Option.map_eq_some_iff] at he
    obtain ⟨i, hi, rfl⟩ := he
    obtain ⟨hk, hi⟩ := List.getElem?_eq_some_iff.mp hi
    rw [List.getElem_range] at hi
    rw [List.length_range] at hk
    subst hi
    rw [Nat.add_sub_add_right, show a + 1 - k = a - k + 1 by omega]
    apply h level hlevel (a - k)
    exact (Nat.mul_le_mul_right _ (by omega)).trans horigin
  obtain ⟨m, hm, hscan, hmiss, hend⟩ :=
    scan_spec (fun k => T ((a + 1 - k) * levelWidth branching sizes level))
      (fun k => H ((a + 1 - k) * levelWidth branching sizes level)) hstates
  rw [List.length_map, List.length_range] at hm hend
  refine ⟨m, hm, hscan, ?_, ?_⟩
  · cases m with
    | zero => exact hstart
    | succ m => exact hmiss m (Nat.lt_succ_self m)
  · intro hlt
    rw [← hend hlt, Nat.add_sub_add_right]

/-- One round of the walk, at a place of the level. -/
theorem walkIndexBw_round {level a m fuel : ℕ} {s s' : σ} (ha : a < sizes.getD level 0)
    (hpos : 0 < branching) (hm : m ≤ a % branching + 1)
    (hscan : scan hits pass s ((List.range (a % branching + 1)).map fun k => entry level (a - k)) =
      (m, s')) :
    walkIndexBw hits pass branching sizes entry (fuel + 1) a level s =
      if m < a % branching + 1 then
        if level + 1 < sizes.length then
          walkIndexBw hits pass branching sizes entry fuel (((a - m + 1) * branching : ℕ) - 1)
            (level + 1) s'
        else some (some ((a - m : ℕ) : ℤ), s')
      else if 0 < level then
        walkIndexBw hits pass branching sizes entry fuel ((a / branching : ℕ) - 1) (level - 1) s'
      else some (none, s') := by
  have hdiv : branching * (a / branching) + a % branching = a := Nat.div_add_mod a branching
  have hbranch : (a : ℤ) / branching * branching = ((branching * (a / branching) : ℕ) : ℤ) := by
    rw [Nat.mul_comm]
    norm_cast
  have hup : (((branching * (a / branching) : ℕ) : ℤ) - 1) / branching = (a / branching : ℕ) - 1 := by
    generalize a / branching = q
    have hsplit : ((branching * q : ℕ) : ℤ) - 1 = ((branching : ℤ) - 1) + branching * ((q : ℤ) - 1) := by
      rw [Nat.cast_mul, Int.mul_sub]
      omega
    rw [hsplit, Int.add_mul_ediv_left _ _ (by omega), Int.ediv_eq_zero_of_lt (by omega) (by omega),
      Int.zero_add]
  have hfirst : ¬((a : ℤ) ≥ (sizes.getD level 0 : ℕ)) := by omega
  have hcount : ((a : ℤ) - (((branching * (a / branching) : ℕ) : ℤ) - 1)).toNat =
      a % branching + 1 := by omega
  have hentries : ((List.range (a % branching + 1)).map fun (k : ℕ) =>
      entry level ((a : ℤ) - k).toNat) =
      (List.range (a % branching + 1)).map fun k => entry level (a - k) := by
    apply List.map_congr_left
    intro k _
    congr 1
    omega
  simp only [walkIndexBw, if_pos (Int.natCast_nonneg a), if_neg hfirst, hbranch, hcount, hentries,
    hscan, hup]
  have hle : m ≤ a + 1 := hm.trans (Nat.succ_le_succ (Nat.mod_le a branching))
  by_cases hlt : m < a % branching + 1
  · have hsub : (a : ℤ) - m = ((a - m : ℕ) : ℤ) := by omega
    have hdown : (((a - m : ℕ) : ℤ) + 1) * branching - 1 = (((a - m + 1) * branching : ℕ) : ℤ) - 1 := by
      norm_cast
    rw [if_pos hlt, if_pos (by omega), hsub, hdown]
  · rw [if_neg hlt, if_neg (by omega)]

variable (hcover : LevelsCover branching sizes)

include hcover

theorem LevelsCover.lt_of_bound {level a : ℕ} (hlevel : level < sizes.length)
    (h : (a + 1) * levelWidth branching sizes level ≤ lowestSize sizes) : a < sizes.getD level 0 := by
  rw [hcover.lt_iff level hlevel]
  have hwidth : 0 < levelWidth branching sizes level := Nat.pow_pos hcover.branching_pos
  rw [Nat.add_one_mul] at h
  omega

/-- From an entry that is hit the walk goes down to the block. -/
theorem TakesBw.descend (h : TakesBw hits pass branching sizes entry T H origin)
    (horigin : origin ≤ lowestSize sizes) {level c fuel : ℕ} (hlevel : level < sizes.length)
    (hfuel : sizes.length ≤ level + 1 + fuel)
    (hc : (c + 1) * levelWidth branching sizes level ≤ origin)
    (hmiss : H ((c + 1) * levelWidth branching sizes level) = false)
    (hhit : H (c * levelWidth branching sizes level) = true) :
    ∃ out, (if level + 1 < sizes.length then
        walkIndexBw hits pass branching sizes entry fuel (((c + 1) * branching : ℕ) - 1) (level + 1)
          (T ((c + 1) * levelWidth branching sizes level))
      else some (some (c : ℤ), T ((c + 1) * levelWidth branching sizes level))) = some out ∧
      EndsBw T H origin out := by
  have hpos := hcover.branching_pos
  induction fuel generalizing level c with
  | zero =>
      rw [if_neg (by omega)]
      exact ⟨_, rfl, .of_lowest (by omega) hc hmiss hhit⟩
  | succ fuel ih =>
      split_ifs with hdeeper
      · obtain ⟨a, ha⟩ : ∃ a, (c + 1) * branching = a + 1 :=
          Nat.exists_eq_add_one_of_ne_zero (Nat.mul_ne_zero (Nat.succ_ne_zero c) (by omega))
        have hmod : a % branching + 1 = branching := by
          rw [Nat.add_one_mul] at ha
          rw [show a = c * branching + (branching - 1) by omega, Nat.add_comm (c * branching),
            Nat.add_mul_mod_self_right, Nat.mod_eq_of_lt (by omega)]
          omega
        have hcount : a % branching + 1 ≤ a + 1 := Nat.succ_le_succ (Nat.mod_le a branching)
        have hwidth : (a + 1) * levelWidth branching sizes (level + 1) =
            (c + 1) * levelWidth branching sizes level := by
          rw [levelWidth_succ hdeeper, ← Nat.mul_assoc, ha]
        have hfront : (a + 1 - branching) * levelWidth branching sizes (level + 1) =
            c * levelWidth branching sizes level := by
          rw [levelWidth_succ hdeeper, ← Nat.mul_assoc, ← ha, Nat.add_one_mul, Nat.add_sub_cancel]
        rw [← hwidth] at hc hmiss ⊢
        have hsize := hcover.lt_of_bound hdeeper (hc.trans horigin)
        obtain ⟨m, hm, hscan, hmiss', hend⟩ :=
          h.scan hdeeper hcount hc hmiss
        rw [ha, Nat.cast_add_one, Int.add_sub_cancel, walkIndexBw_round hsize hpos hm hscan]
        rcases Nat.lt_or_eq_of_le hm with hlt | heq
        · have hback : a + 1 - m = a - m + 1 := by omega
          rw [hback] at hmiss' ⊢
          rw [if_pos hlt]
          have hnext : (a - m + 1) * levelWidth branching sizes (level + 1) ≤ origin :=
            (Nat.mul_le_mul_right _ (by omega)).trans hc
          exact ih hdeeper (by omega) hnext hmiss' (hend hlt)
        · rw [heq, hmod, hfront] at hmiss'
          exact absurd hhit (by rw [hmiss']; exact Bool.false_ne_true)
      · exact ⟨_, rfl, .of_lowest hdeeper hc hmiss hhit⟩

/-- One branch of a level: the walk finds the block, or it is in front of the branch. -/
theorem TakesBw.branch (h : TakesBw hits pass branching sizes entry T H origin)
    (horigin : origin ≤ lowestSize sizes) {level a fuel : ℕ} (hlevel : level < sizes.length)
    (hfuel : sizes.length ≤ level + 1 + fuel)
    (ha : (a + 1) * levelWidth branching sizes level ≤ origin)
    (hmiss : H ((a + 1) * levelWidth branching sizes level) = false) :
    (∃ out, walkIndexBw hits pass branching sizes entry (fuel + 1) a level
        (T ((a + 1) * levelWidth branching sizes level)) = some out ∧ EndsBw T H origin out) ∨
      H (a / branching * branching * levelWidth branching sizes level) = false ∧
        walkIndexBw hits pass branching sizes entry (fuel + 1) a level
            (T ((a + 1) * levelWidth branching sizes level)) =
          if 0 < level then
            walkIndexBw hits pass branching sizes entry fuel ((a / branching : ℕ) - 1) (level - 1)
              (T (a / branching * branching * levelWidth branching sizes level))
          else some (none, T (a / branching * branching * levelWidth branching sizes level)) := by
  have hpos := hcover.branching_pos
  have hsize := hcover.lt_of_bound hlevel (ha.trans horigin)
  have hcount : a % branching + 1 ≤ a + 1 := Nat.succ_le_succ (Nat.mod_le a branching)
  have hfront : a + 1 - (a % branching + 1) = a / branching * branching := by
    have hdiv := Nat.div_add_mod a branching
    rw [Nat.mul_comm] at hdiv
    omega
  obtain ⟨m, hm, hscan, hmiss', hend⟩ := h.scan hlevel hcount ha hmiss
  rw [walkIndexBw_round hsize hpos hm hscan]
  rcases Nat.lt_or_eq_of_le hm with hlt | rfl
  · have hback : a + 1 - m = a - m + 1 := by omega
    rw [hback] at hmiss' ⊢
    rw [if_pos hlt]
    exact .inl (h.descend hcover horigin hlevel (by omega)
      ((Nat.mul_le_mul_right _ (by omega)).trans ha) hmiss' (hend hlt))
  · rw [hfront] at hmiss' ⊢
    rw [if_neg (Nat.lt_irrefl _)]
    exact .inr ⟨hmiss', rfl⟩

/-- The walk from a place of a level ends at the block where the search is over. -/
theorem TakesBw.walk (h : TakesBw hits pass branching sizes entry T H origin)
    (horigin : origin ≤ lowestSize sizes) {level n fuel : ℕ} (hlevel : level < sizes.length)
    (hfuel : level + sizes.length < fuel) (hn : n * levelWidth branching sizes level ≤ origin)
    (hmiss : H (n * levelWidth branching sizes level) = false) :
    ∃ out, walkIndexBw hits pass branching sizes entry fuel ((n : ℤ) - 1) level
        (T (n * levelWidth branching sizes level)) = some out ∧ EndsBw T H origin out := by
  induction level generalizing n fuel with
  | zero =>
      obtain ⟨fuel, rfl⟩ := Nat.exists_eq_add_one_of_ne_zero (by omega : fuel ≠ 0)
      cases n with
      | zero =>
          rw [Nat.zero_mul] at hmiss ⊢
          exact ⟨_, rfl, .miss hmiss⟩
      | succ a =>
          have hroot : a / branching = 0 := by
            apply Nat.div_eq_of_lt
            exact Nat.lt_of_lt_of_le (hcover.lt_of_bound hlevel (hn.trans horigin)) hcover.root_le_branching
          rw [Nat.cast_add_one, Int.add_sub_cancel]
          obtain hfound | ⟨hmiss', hwalk⟩ :=
            h.branch hcover horigin hlevel (by omega : sizes.length ≤ 0 + 1 + fuel) hn hmiss
          · exact hfound
          · rw [hroot, Nat.zero_mul, Nat.zero_mul] at hmiss'
            rw [hwalk, if_neg (Nat.lt_irrefl 0), hroot, Nat.zero_mul, Nat.zero_mul]
            exact ⟨_, rfl, .miss hmiss'⟩
  | succ level ih =>
      obtain ⟨fuel, rfl⟩ := Nat.exists_eq_add_one_of_ne_zero (by omega : fuel ≠ 0)
      cases n with
      | zero =>
          rw [Nat.zero_mul] at hmiss ⊢
          exact ⟨_, rfl, .miss hmiss⟩
      | succ a =>
          rw [Nat.cast_add_one, Int.add_sub_cancel]
          obtain hfound | ⟨hmiss', hwalk⟩ := h.branch hcover horigin hlevel
            (by omega : sizes.length ≤ level + 1 + 1 + fuel) hn hmiss
          · exact hfound
          · have hparent : a / branching * branching * levelWidth branching sizes (level + 1) =
                a / branching * levelWidth branching sizes level := by
              rw [levelWidth_succ hlevel, Nat.mul_assoc]
            rw [hparent] at hmiss' hwalk
            rw [hwalk, if_pos (Nat.succ_pos level), Nat.add_sub_cancel]
            apply ih (by omega) (by omega) _ hmiss'
            rw [← hparent]
            apply (Nat.mul_le_mul_right _ _).trans hn
            exact (Nat.div_mul_le_self a branching).trans (Nat.le_succ a)

/-- From a block back. -/
theorem TakesBw.walkIndex (h : TakesBw hits pass branching sizes entry T H origin) {fuel : ℕ}
    (hfuel : 2 * sizes.length ≤ fuel) (horigin : origin ≤ lowestSize sizes)
    (hmiss : H origin = false) :
    ∃ out, walkIndexBw hits pass branching sizes entry fuel ((origin : ℤ) - 1) (sizes.length - 1)
      (T origin) = some out ∧ EndsBw T H origin out := by
  have hpos := hcover.length_pos
  have hwidth : origin * levelWidth branching sizes (sizes.length - 1) = origin := by
    rw [levelWidth_lowest, Nat.mul_one]
  have hwalk := h.walk hcover horigin (Nat.sub_one_lt_of_lt hpos)
    (by omega : sizes.length - 1 + sizes.length < fuel) (Nat.le_of_eq hwidth)
    (by rw [hwidth]; exact hmiss)
  rwa [hwidth] at hwalk

end Backward

end Memoria.Lib

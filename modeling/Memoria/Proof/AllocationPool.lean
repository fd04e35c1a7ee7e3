import Mathlib.Tactic.Positivity
import Memoria.AllocationPool
import Memoria.Proof.ArenaBuffer

/-!
# When the allocation pool conserves storage

Without a refill the pool hands out exactly what it is asked for, as long as the extents that stay
are no more than those that go. A refill appends extents to the level without adding them to its
total, so the total is wrong after every refill that moves a unit; and one that moves none leaves the
request unserved.
-/

namespace Memoria

namespace AllocationMetadata

variable {alc : AllocationMetadata} {u amount : ℤ}

theorem not_covers_of_size_zero (h : alc.size = 0) : ¬ alc.Covers u := by
  unfold Covers
  rw [h]
  omega

theorem take_covers (h0 : 0 ≤ amount) (h1 : amount ≤ alc.size) :
    alc.Covers u ↔ (alc.take amount).1.Covers u ∨ (alc.take amount).2.Covers u := by
  have hpow : (0 : ℤ) ≤ 2 ^ alc.level := by positivity
  have hleft : 0 ≤ amount * 2 ^ alc.level := Int.mul_nonneg h0 hpow
  have hright : amount * 2 ^ alc.level ≤ alc.size * 2 ^ alc.level :=
    Int.mul_le_mul_of_nonneg_right h1 hpow
  simp only [Covers, take, level0Position, add_mul, sub_mul]
  omega

theorem not_take_covers_both :
    ¬ ((alc.take amount).1.Covers u ∧ (alc.take amount).2.Covers u) := by
  simp only [Covers, take, level0Position, add_mul]
  omega

end AllocationMetadata

namespace AllocationPool

open AllocationMetadata Lib

variable {Levels : ℕ} {u amount sum total : ℤ} {alc : AllocationMetadata}
  {extents : List AllocationMetadata}

@[simp] theorem load_nil : load u [] = 0 := rfl

@[simp] theorem load_cons :
    load u (alc :: extents) = load u extents + if alc.Covers u then 1 else 0 := by
  simp [load, List.countP_cons]

@[simp] theorem load_append (extents others : List AllocationMetadata) :
    load u (extents ++ others) = load u extents + load u others := by
  simp [load]

theorem load_take (h0 : 0 ≤ amount) (h1 : amount ≤ alc.size) :
    load u [(alc.take amount).1] + load u [(alc.take amount).2] = load u [alc] := by
  have hiff : alc.Covers u ↔ (alc.take amount).1.Covers u ∨ (alc.take amount).2.Covers u :=
    take_covers h0 h1
  have hone : ¬ ((alc.take amount).1.Covers u ∧ (alc.take amount).2.Covers u) :=
    not_take_covers_both
  simp only [load_cons, load_nil]
  by_cases hleft : (alc.take amount).1.Covers u <;>
    by_cases hright : (alc.take amount).2.Covers u <;> simp_all

theorem load_eq_zero (h : ∀ alc ∈ extents, alc.size = 0) : load u extents = 0 := by
  unfold load
  rw [List.countP_eq_zero]
  intro alc hmem
  simpa using not_covers_of_size_zero (h alc hmem)

theorem sum_load_update (u : ℤ) (levels : Fin Levels → List AllocationMetadata) (level : Fin Levels)
    (extents : List AllocationMetadata) :
    ∑ l, load u (Function.update levels level extents l) + load u (levels level) =
      ∑ l, load u (levels l) + load u extents := by
  have hsplit := Finset.add_sum_erase Finset.univ (fun l => load u (levels l)) (Finset.mem_univ level)
  have hsplit' := Finset.add_sum_erase Finset.univ
    (fun l => load u (Function.update levels level extents l)) (Finset.mem_univ level)
  have hsame : ∑ l ∈ Finset.univ.erase level, load u (Function.update levels level extents l) =
      ∑ l ∈ Finset.univ.erase level, load u (levels l) := by
    refine Finset.sum_congr rfl ?_
    intro l hl
    rw [Function.update_of_ne (Finset.ne_of_mem_erase hl)]
  simp only [Function.update_self] at hsplit'
  omega

def weight (extents : List AllocationMetadata) : ℤ :=
  (extents.map (·.size)).sum

@[simp] theorem weight_nil : weight [] = 0 := rfl

@[simp] theorem weight_cons : weight (alc :: extents) = alc.size + weight extents := by
  simp [weight]

@[simp] theorem weight_append (extents others : List AllocationMetadata) :
    weight (extents ++ others) = weight extents + weight others := by
  simp [weight]

def Sound (level : ℕ) (extents : List AllocationMetadata) : Prop :=
  ∀ alc ∈ extents, alc.level = level ∧ 0 ≤ alc.size

theorem Sound.tail {level : ℕ} (h : Sound level (alc :: extents)) : Sound level extents :=
  fun alc hmem => h alc (List.mem_cons_of_mem _ hmem)

theorem Sound.weight_nonneg {level : ℕ} (h : Sound level extents) : 0 ≤ weight extents := by
  induction extents with
  | nil => rfl
  | cons alc extents ih =>
      rw [weight_cons]
      exact Int.add_nonneg (h alc List.mem_cons_self).2 (ih h.tail)

theorem Sound.append {level : ℕ} {others : List AllocationMetadata} (h : Sound level extents)
    (h' : Sound level others) : Sound level (extents ++ others) := by
  intro alc hmem
  rcases List.mem_append.mp hmem with hmem | hmem
  · exact h alc hmem
  · exact h' alc hmem

theorem Sound.sizes_zero {level : ℕ} (h : Sound level extents) (hzero : weight extents = 0) :
    ∀ alc ∈ extents, alc.size = 0 := by
  induction extents with
  | nil => simp
  | cons alc extents ih =>
      have hnonneg := h.tail.weight_nonneg
      have hsize := (h alc List.mem_cons_self).2
      rw [weight_cons] at hzero
      intro other hmem
      rcases List.mem_cons.mp hmem with rfl | hmem
      · omega
      · exact ih h.tail (by omega) other hmem

/-- `removeFront` is what `remove` does to the content of a buffer. -/
theorem removeFront_eq_some_iff {buffer : ArenaBuffer AllocationMetadata}
    (hbuffer : buffer.Honest extents) {cnt : ℕ} (hcnt : cnt ≤ extents.length)
    (left : List AllocationMetadata) : removeFront cnt extents = some left ↔
      extents.drop cnt = left ∧
        ∃ removed, buffer.remove 0 cnt = some removed ∧ removed.Honest (extents.drop cnt) := by
  have hiff := hbuffer.remove_iff (Nat.zero_le cnt) (hbuffer.size_eq ▸ hcnt)
  simp only [List.take_zero, List.nil_append, Nat.sub_zero, hbuffer.size_eq] at hiff
  simp only [removeFront, hiff, Option.ite_none_right_eq_some, Option.some.injEq]
  exact and_comm

section HandOut

variable {level : ℕ}

def HandedOut.left (out : HandedOut) : List AllocationMetadata :=
  out.extents.drop out.cnt

@[simp] theorem HandedOut.left_cons (out : HandedOut) (handed : List AllocationMetadata) :
    HandedOut.left ⟨handed, alc :: out.extents, out.cnt + 1, total⟩ = out.left := rfl

@[simp] theorem HandedOut.left_zero (handed : List AllocationMetadata) :
    HandedOut.left ⟨handed, extents, 0, total⟩ = extents := rfl

theorem handOut_length (amount sum total : ℤ) (extents : List AllocationMetadata) :
    (handOut amount extents sum total).extents.length = extents.length := by
  induction extents generalizing sum total with
  | nil => rfl
  | cons alc extents ih =>
      simp only [handOut]
      split
      · simp [ih]
      · rfl

/-- The loop takes the first `n` extents whole if they fit together. -/
theorem le_cnt_iff (sum total : ℤ) (h : Sound level extents) (hsum : sum ≤ amount) {n : ℕ}
    (hn : n ≤ extents.length) : n ≤ (handOut amount extents sum total).cnt ↔
      sum + weight (extents.take n) ≤ amount := by
  induction extents generalizing sum total n with
  | nil =>
      obtain rfl := Nat.le_zero.mp hn
      simpa [handOut] using hsum
  | cons alc extents ih =>
      cases n with
      | zero => simpa using hsum
      | succ n =>
          have hnonneg : 0 ≤ weight (extents.take n) :=
            Sound.weight_nonneg fun alc hmem => h.tail alc (List.mem_of_mem_take hmem)
          simp only [handOut]
          split
          · next hfits =>
              have hnext := ih (sum + alc.size) (total - alc.size) h.tail (by omega)
                (Nat.le_of_succ_le_succ hn)
              simp only [Nat.succ_le_succ_iff, hnext, List.take_succ_cons, weight_cons, add_assoc]
          · next hless =>
              simp only [List.take_succ_cons, weight_cons]
              omega

theorem removeFront_handOut (total : ℤ) (h : Sound level extents) (hamount : 0 ≤ amount) :
    removeFront (handOut amount extents 0 total).cnt (handOut amount extents 0 total).extents =
      if HalfFits amount extents then some (handOut amount extents 0 total).left else none := by
  have hhalf : (extents.length + 1) / 2 ≤ extents.length := by omega
  have hcnt : (extents.length + 1) / 2 ≤ (handOut amount extents 0 total).cnt ↔ _ :=
    le_cnt_iff 0 total h hamount hhalf
  have hiff : extents.length - (handOut amount extents 0 total).cnt ≤
      (handOut amount extents 0 total).cnt ↔ HalfFits amount extents := by
    rw [HalfFits, ← weight, ← Int.zero_add (weight _), ← hcnt]
    omega
  simp only [removeFront, handOut_length, hiff]
  rfl

/-- What is handed out and what stays are extents of the level, of nonnegative sizes. -/
theorem handOut_sound (sum total : ℤ) (h : Sound level extents) (hsum : sum ≤ amount) :
    Sound level (handOut amount extents sum total).handed ∧
      Sound level (handOut amount extents sum total).left := by
  induction extents generalizing sum total with
  | nil => exact ⟨h, h⟩
  | cons alc extents ih =>
      have hhead := h alc List.mem_cons_self
      simp only [handOut]
      split
      · next hfits =>
          have hnext := ih (sum + alc.size) (total - alc.size) h.tail (by omega)
          refine ⟨?_, hnext.2⟩
          intro other hmem
          rcases List.mem_cons.mp hmem with rfl | hmem
          · exact hhead
          · exact hnext.1 other hmem
      · next hfits =>
          constructor
          · intro other hmem
            obtain rfl := List.mem_singleton.mp hmem
            exact ⟨hhead.1, show 0 ≤ amount - sum by omega⟩
          · intro other hmem
            rcases List.mem_cons.mp hmem with rfl | hmem
            · exact ⟨hhead.1, show 0 ≤ alc.size - (amount - sum) by omega⟩
            · exact h.tail other hmem

theorem handOut_weight (sum total : ℤ) (h : Sound level extents) (hsum : sum ≤ amount) :
    weight (handOut amount extents sum total).handed = min (amount - sum) (weight extents) := by
  induction extents generalizing sum total with
  | nil =>
      simp only [handOut, weight_nil]
      omega
  | cons alc extents ih =>
      have hnonneg := h.tail.weight_nonneg
      have hsize := (h alc List.mem_cons_self).2
      simp only [handOut]
      split
      · next hfits =>
          have hnext := ih (sum + alc.size) (total - alc.size) h.tail (by omega)
          simp only [weight_cons, hnext]
          omega
      · next hfits =>
          simp only [take, weight_cons, weight_nil]
          omega

theorem handOut_weight_left (amount sum total : ℤ) (extents : List AllocationMetadata) :
    weight (handOut amount extents sum total).handed + weight (handOut amount extents sum total).left
      = weight extents := by
  induction extents generalizing sum total with
  | nil => rfl
  | cons alc extents ih =>
      simp only [handOut]
      split
      · have hnext := ih (sum + alc.size) (total - alc.size)
        simp only [HandedOut.left_cons, weight_cons]
        omega
      · simp only [HandedOut.left_zero, take, weight_cons, weight_nil]
        omega

theorem handOut_total :
    (handOut amount extents sum total).total =
      total - weight (handOut amount extents sum total).handed := by
  induction extents generalizing sum total with
  | nil => simp [handOut]
  | cons alc extents ih =>
      simp only [handOut]
      split
      · rw [ih, weight_cons]
        omega
      · simp [take]

theorem handOut_load (u sum total : ℤ) (h : Sound level extents) (hsum : sum ≤ amount) :
    load u (handOut amount extents sum total).handed + load u (handOut amount extents sum total).left
      = load u extents := by
  induction extents generalizing sum total with
  | nil => rfl
  | cons alc extents ih =>
      simp only [handOut]
      split
      · next hfits =>
          have hnext := ih (sum + alc.size) (total - alc.size) h.tail (by omega)
          simp only [HandedOut.left_cons, load_cons]
          omega
      · next hfits =>
          have htake : load u [(alc.take (amount - sum)).1] + load u [(alc.take (amount - sum)).2]
              = load u [alc] := load_take (by omega) (by omega)
          simp only [HandedOut.left_zero, load_cons, load_nil] at htake ⊢
          omega

/-- The loop gives at least one extent of a level that has one. -/
theorem handOut_ne_nil (h : extents ≠ []) : (handOut amount extents sum total).handed ≠ [] := by
  cases extents with
  | nil => exact absurd rfl h
  | cons alc extents =>
      simp only [handOut]
      split <;> simp

theorem handOut_head (total : ℤ) :
    ∀ alc ∈ extents.head?, ∀ given ∈ (handOut amount extents 0 total).handed.head?,
      given.size = min amount alc.size := by
  cases extents with
  | nil => simp
  | cons alc extents =>
      simp only [handOut, List.head?_cons, Option.mem_def, Option.some.injEq, forall_eq']
      split
      · next hfits =>
          simp only [List.head?_cons, Option.some.injEq, forall_eq']
          omega
      · next hfits =>
          simp only [List.head?_cons, Option.some.injEq, forall_eq', take]
          omega

end HandOut

section OwnLevel

variable {pool : AllocationPool Levels} {level : Fin Levels}

def handedOut (pool : AllocationPool Levels) (level : Fin Levels) (amount : ℤ) :
    List AllocationMetadata × AllocationPool Levels :=
  let out := handOut amount (pool.levels level) 0 (pool.totals level)
  (out.handed,
    ⟨Function.update pool.totals level out.total, Function.update pool.levels level out.left⟩)

theorem eq_handedOut {out : List AllocationMetadata × AllocationPool Levels}
    (hout : pool.handOutAt level amount = some out) : out = pool.handedOut level amount := by
  simp only [handOutAt, removeFront, Option.map_eq_some_iff, Option.ite_none_right_eq_some,
    Option.some.injEq] at hout
  obtain ⟨left, ⟨-, rfl⟩, rfl⟩ := hout
  rfl

def SoundPool (pool : AllocationPool Levels) : Prop :=
  ∀ level : Fin Levels, Sound level (pool.levels level)

theorem SoundPool.update {totals : Fin Levels → ℤ} (h : SoundPool pool)
    (hlevel : Sound level extents) :
    SoundPool ⟨totals, Function.update pool.levels level extents⟩ := by
  intro l
  by_cases heq : l = level
  · subst heq
    simpa using hlevel
  · simpa [heq] using h l

theorem handOutAt_eq (level : Fin Levels) (h : SoundPool pool) (hamount : 0 ≤ amount) :
    pool.handOutAt level amount =
      if HalfFits amount (pool.levels level) then some (pool.handedOut level amount) else none := by
  rw [handOutAt, removeFront_handOut _ (h level) hamount]
  split <;> rfl

theorem handedOut_sound (h : SoundPool pool) (hamount : 0 ≤ amount) :
    SoundPool (pool.handedOut level amount).2 :=
  h.update (handOut_sound 0 _ (h level) hamount).2

theorem handedOut_load (u : ℤ) (h : SoundPool pool) (hamount : 0 ≤ amount) :
    load u (pool.handedOut level amount).1 +
        ∑ l, load u ((pool.handedOut level amount).2.levels l) = ∑ l, load u (pool.levels l) := by
  have hlevel := handOut_load u 0 (pool.totals level) (h level) hamount
  have hupdate := sum_load_update u pool.levels level
    (handOut amount (pool.levels level) 0 (pool.totals level)).left
  simp only [handedOut]
  omega

theorem handedOut_totals (h : ∀ l, pool.totals l = weight (pool.levels l)) (l : Fin Levels) :
    (pool.handedOut level amount).2.totals l = weight ((pool.handedOut level amount).2.levels l) := by
  by_cases heq : l = level
  · subst heq
    have hleft := handOut_weight_left amount 0 (pool.totals l) (pool.levels l)
    have htotal := h l
    simp only [handedOut, Function.update_self, handOut_total]
    omega
  · simpa [handedOut, heq] using h l

theorem handedOut_weight (level : Fin Levels) (h : SoundPool pool) (hamount : 0 ≤ amount) :
    weight (pool.handedOut level amount).1 = min amount (weight (pool.levels level)) := by
  simpa [handedOut] using handOut_weight 0 (pool.totals level) (h level) hamount

theorem handedOut_level (level : Fin Levels) (h : SoundPool pool) (hamount : 0 ≤ amount) :
    Sound level (pool.handedOut level amount).1 :=
  (handOut_sound 0 _ (h level) hamount).1

end OwnLevel

section NoRefill

variable {pool : AllocationPool Levels} {level : Fin Levels}
  {out : List AllocationMetadata × AllocationPool Levels}

variable (hsound : SoundPool pool) (htotals : ∀ l, pool.totals l = weight (pool.levels l))

include hsound

/-- Without a refill a request takes from its own level or changes nothing. -/
theorem NoRefill.allocate_eq (h : NoRefill pool level amount) (hamount : 0 ≤ amount) :
    (amount ≤ pool.totals level ∧
        pool.allocate level amount = some (pool.handedOut level amount)) ∨
      (pool.totals level < amount ∧ pool.allocate level amount = some ([], pool)) := by
  unfold allocate
  rcases h with ⟨hown, hhalf⟩ | ⟨hown, habove⟩
  · refine Or.inl ⟨hown, ?_⟩
    rw [if_neg (by omega), handOutAt_eq level hsound hamount, if_pos hhalf]
  · refine Or.inr ⟨hown, ?_⟩
    rw [if_pos hown, populateLevelFromAbove, if_neg (by omega)]

theorem NoRefill.exists_allocate (h : NoRefill pool level amount) (hamount : 0 ≤ amount) :
    ∃ out, pool.allocate level amount = some out := by
  rcases h.allocate_eq hsound hamount with ⟨-, heq⟩ | ⟨-, heq⟩
  · exact ⟨_, heq⟩
  · exact ⟨_, heq⟩

theorem NoRefill.eq_of_allocate (h : NoRefill pool level amount) (hamount : 0 ≤ amount)
    (hout : pool.allocate level amount = some out) :
    (amount ≤ pool.totals level ∧ out = pool.handedOut level amount) ∨
      (pool.totals level < amount ∧ out = ([], pool)) := by
  rcases h.allocate_eq hsound hamount with ⟨hown, heq⟩ | ⟨hown, heq⟩
  · exact Or.inl ⟨hown, Option.some.inj (hout.symm.trans heq)⟩
  · exact Or.inr ⟨hown, Option.some.inj (hout.symm.trans heq)⟩

/-- A request without a refill leaves extents of their levels everywhere in the pool. -/
theorem NoRefill.allocate_sound (h : NoRefill pool level amount) (hamount : 0 ≤ amount)
    (hout : pool.allocate level amount = some out) : SoundPool out.2 := by
  rcases h.eq_of_allocate hsound hamount hout with ⟨-, rfl⟩ | ⟨-, rfl⟩
  · exact handedOut_sound hsound hamount
  · exact hsound

theorem NoRefill.allocate_load (u : ℤ) (h : NoRefill pool level amount) (hamount : 0 ≤ amount)
    (hout : pool.allocate level amount = some out) :
    load u out.1 + ∑ l, load u (out.2.levels l) = ∑ l, load u (pool.levels l) := by
  rcases h.eq_of_allocate hsound hamount hout with ⟨-, rfl⟩ | ⟨-, rfl⟩
  · exact handedOut_load u hsound hamount
  · simp

include htotals

theorem NoRefill.allocate_totals (h : NoRefill pool level amount) (hamount : 0 ≤ amount)
    (hout : pool.allocate level amount = some out) (l : Fin Levels) :
    out.2.totals l = weight (out.2.levels l) := by
  rcases h.eq_of_allocate hsound hamount hout with ⟨-, rfl⟩ | ⟨-, rfl⟩
  · exact handedOut_totals htotals l
  · exact htotals l

theorem NoRefill.allocate_served (h : NoRefill pool level amount) (hamount : 0 ≤ amount)
    (hout : pool.allocate level amount = some out) : Served pool level amount out := by
  rcases h.eq_of_allocate hsound hamount hout with ⟨hown, rfl⟩ | ⟨-, rfl⟩
  · have hweight := handedOut_weight level hsound hamount
    refine Or.inl ⟨fun alc hmem => (handedOut_level level hsound hamount alc hmem).1, ?_⟩
    rw [← htotals level, min_eq_left hown] at hweight
    exact hweight
  · exact Or.inr ⟨rfl, rfl⟩

/-- What `allocate_one` drops from the buffer holds no unit. -/
theorem NoRefill.allocateOne_dropped (h : NoRefill pool level 1)
    (hfirst : ∀ alc, (pool.levels level).head? = some alc → 1 ≤ pool.totals level → 0 < alc.size)
    (hout : pool.allocate level 1 = some out) :
    out.1 = [] ∨ ∃ given dropped, out.1 = given :: dropped ∧ given.size = 1 ∧ given.level = level ∧
      ∀ alc ∈ dropped, alc.size = 0 := by
  rcases h.eq_of_allocate hsound Int.one_nonneg hout with ⟨hown, rfl⟩ | ⟨-, rfl⟩
  · have hlevel := handedOut_level level hsound Int.one_nonneg
    have hweight := handedOut_weight level hsound Int.one_nonneg
    have hhead : ∀ alc ∈ (pool.levels level).head?, ∀ given ∈ (pool.handedOut level 1).1.head?,
        given.size = min 1 alc.size := handOut_head (pool.totals level)
    rw [← htotals level, min_eq_left hown] at hweight
    generalize (pool.handedOut level 1).1 = out at *
    cases out with
    | nil => exact Or.inl rfl
    | cons given dropped =>
        cases hextents : pool.levels level with
        | nil =>
            have := htotals level
            rw [hextents, weight_nil] at this
            omega
        | cons alc rest =>
            have hpos := hfirst alc (by rw [hextents]; rfl) hown
            have hsize := hhead alc (by rw [hextents]; rfl) given rfl
            have hgiven : given.size = 1 := by omega
            rw [weight_cons] at hweight
            exact Or.inr ⟨given, dropped, rfl, hgiven, (hlevel given List.mem_cons_self).1,
              hlevel.tail.sizes_zero (by omega)⟩
  · exact Or.inl rfl

end NoRefill

section Refill

variable {level : Fin Levels} {ll : ℕ}

/-- The extents a refill appends have no negative size. -/
theorem takeFrom_appended (h : Sound ll extents) :
    Sound level (takeFrom level ll amount extents sum total).appended := by
  induction extents generalizing sum total with
  | nil => exact fun alc hmem => absurd hmem List.not_mem_nil
  | cons alc extents ih =>
      have hhead := h alc List.mem_cons_self
      have hpow : (0 : ℤ) < 2 ^ (ll - (level : ℕ)) := by positivity
      have hpow' : (0 : ℤ) ≤ 2 ^ (alc.level - (level : ℕ)) := by positivity
      have havl : 0 ≤ alc.size * 2 ^ (ll - (level : ℕ)) := Int.mul_nonneg hhead.2 hpow.le
      simp only [takeFrom]
      split
      · intro other hmem
        rcases List.mem_cons.mp hmem with rfl | hmem
        · exact ⟨rfl, Int.mul_nonneg hhead.2 hpow'⟩
        · exact ih h.tail other hmem
      · next hless =>
          intro other hmem
          obtain rfl := List.mem_singleton.mp hmem
          have hquot : 0 ≤ (amount - sum) / 2 ^ (ll - (level : ℕ)) :=
            Int.ediv_nonneg (by omega) hpow.le
          refine ⟨rfl, Int.mul_nonneg (Int.mul_nonneg ?_ hpow.le) hpow'⟩
          split <;> omega

theorem takeFrom_appended_eq_nil
    (h : (takeFrom level ll amount extents sum total).appended = []) :
    extents = [] ∧ (takeFrom level ll amount extents sum total).sum = sum := by
  cases extents with
  | nil => exact ⟨rfl, rfl⟩
  | cons alc extents =>
      simp only [takeFrom] at h
      split at h <;> simp at h

/-- A refill only appends to its level, and leaves the total of the level as it was. -/
theorem populateLoop_level (amount sum : ℤ) (lls : List (Fin Levels)) (hnot : level ∉ lls)
    (hnodup : lls.Nodup) (pool : AllocationPool Levels) (hsound : SoundPool pool)
    {refilled : AllocationPool Levels}
    (hout : populateLoop level amount lls sum pool = some refilled) :
    refilled.totals level = pool.totals level ∧
      ∃ appended, Sound level appended ∧
        refilled.levels level = pool.levels level ++ appended ∧
        (appended = [] → sum < amount → ∀ ll ∈ lls, pool.levels ll = []) := by
  -- the loop leaves a level it has passed with negative sizes, so only the levels to come are sound
  suffices hloop : ∀ pool : AllocationPool Levels,
      (∀ ll ∈ lls, Sound ll (pool.levels ll)) →
      populateLoop level amount lls sum pool = some refilled →
      refilled.totals level = pool.totals level ∧
      ∃ appended, Sound level appended ∧
        refilled.levels level = pool.levels level ++ appended ∧
        (appended = [] → sum < amount → ∀ ll ∈ lls, pool.levels ll = []) from
    hloop pool (fun ll _ => hsound ll) hout
  clear hsound hout pool
  induction lls generalizing sum with
  | nil =>
      intro pool _ hout
      obtain rfl := Option.some.inj hout
      exact ⟨rfl, [], fun alc hmem => absurd hmem List.not_mem_nil, by simp, by simp⟩
  | cons ll lls ih =>
      intro pool hsound hout
      obtain ⟨hne, hnot⟩ := not_or.mp (mt List.mem_cons.mpr hnot)
      obtain ⟨hll, hnodup⟩ := List.nodup_cons.mp hnodup
      simp only [populateLoop] at hout
      split at hout
      · next hless =>
          obtain ⟨left, -, hout⟩ := Option.bind_eq_some_iff.mp hout
          set taken := takeFrom level ll amount (pool.levels ll) sum (pool.totals ll) with htaken
          have happended : Sound level taken.appended :=
            takeFrom_appended (hsound ll List.mem_cons_self)
          have hrest : ∀ other ∈ lls, Function.update (Function.update pool.levels ll left)
              level (pool.levels level ++ taken.appended) other = pool.levels other := by
            intro other hmem
            have hlevel : other ≠ level := fun heq => hnot (heq ▸ hmem)
            have hother : other ≠ ll := fun heq => hll (heq ▸ hmem)
            rw [Function.update_of_ne hlevel, Function.update_of_ne hother]
          obtain ⟨htotal, appended, hsound', hlevels, hempty⟩ := ih taken.sum hnot hnodup
            ⟨Function.update pool.totals ll taken.total, Function.update
              (Function.update pool.levels ll left) level
              (pool.levels level ++ taken.appended)⟩
            (by
              intro other hmem
              simp only [hrest other hmem]
              exact hsound other (List.mem_cons_of_mem _ hmem))
            hout
          refine ⟨?_, taken.appended ++ appended, happended.append hsound', ?_, ?_⟩
          · rw [htotal]
            exact Function.update_of_ne hne _ _
          · rw [hlevels, ← List.append_assoc]
            exact congrArg (· ++ appended) (Function.update_self ..)
          · intro hnil _ other hmem
            obtain ⟨hnil, hnil'⟩ := List.append_eq_nil_iff.mp hnil
            have hll' := takeFrom_appended_eq_nil hnil
            rcases List.mem_cons.mp hmem with rfl | hmem
            · exact hll'.1
            · rw [← hrest other hmem]
              exact hempty hnil' (by rw [htaken, hll'.2]; exact hless) other hmem
      · next hless =>
          obtain rfl := Option.some.inj hout
          refine ⟨rfl, [], fun alc hmem => absurd hmem List.not_mem_nil, by simp, ?_⟩
          intro _ hsum
          exact absurd hsum hless

theorem mem_above {ll : Fin Levels} : ll ∈ above level ↔ level < ll := by
  simp [above]

/-- After a refill the total of the level is wrong, or the request is not served: what it gives is
less than was asked for, and it is not nothing. -/
theorem allocate_of_refill {pool : AllocationPool Levels} (hsound : SoundPool pool)
    (htotals : ∀ l, pool.totals l = weight (pool.levels l)) (hamount : 0 ≤ amount)
    (hrefill : ¬ NoRefill pool level amount)
    {out : List AllocationMetadata × AllocationPool Levels}
    (hout : pool.allocate level amount = some out)
    (hkept : out.2.totals level = weight (out.2.levels level)) :
    out.1 ≠ [] ∧ weight out.1 < amount ∧ Sound level out.1 := by
  simp only [NoRefill, not_or, not_and, not_lt] at hrefill
  obtain ⟨hhalf, habove⟩ := hrefill
  unfold allocate at hout
  split at hout
  case isFalse hown =>
    rw [handOutAt_eq level hsound hamount, if_neg (hhalf (by omega))] at hout
    exact absurd hout (by simp)
  case isTrue hown =>
  rw [populateLevelFromAbove, if_pos (habove hown)] at hout
  split at hout
  · exact absurd hout (by simp)
  · next hrefilled => simp at hrefilled
  next refilled hrefilled =>
  simp only [Option.map_eq_some_iff, Prod.mk.injEq, true_and, exists_eq_right] at hrefilled
  obtain rfl := eq_handedOut hout
  obtain ⟨htotal, appended, hnonneg, hlevels, hempty⟩ :=
    populateLoop_level (amount - pool.totals level) 0 (above level)
      (mt mem_above.mp (lt_irrefl level)) ((List.nodup_finRange Levels).filter _) pool hsound
      hrefilled
  have hlevel : Sound level (refilled.levels level) := by
    rw [hlevels]
    exact (hsound level).append hnonneg
  have hhanded := handOut_weight 0 (pool.totals level) hlevel hamount
  have hleft := handOut_weight_left amount 0 (pool.totals level) (refilled.levels level)
  have hsum : weight (refilled.levels level) = pool.totals level + weight appended := by
    rw [hlevels, weight_append, htotals level]
  simp only [handedOut, Function.update_self, handOut_total, htotal] at hkept
  have hzero : weight appended = 0 := by omega
  have hne : refilled.levels level ≠ [] := by
    rw [hlevels]
    intro hnil
    obtain ⟨-, hnil⟩ := List.append_eq_nil_iff.mp hnil
    have hnone : pool.available level = 0 := by
      unfold available
      apply List.sum_eq_zero
      intro x hx
      obtain ⟨ll, hmem, rfl⟩ := List.mem_map.mp hx
      rw [htotals ll, hempty hnil (by omega) ll hmem, weight_nil, zero_mul]
    have habove := habove hown
    omega
  refine ⟨handOut_ne_nil hne, ?_, (handOut_sound 0 _ hlevel hamount).1⟩
  simp only [handedOut, htotal]
  omega

end Refill

structure Inv (ledger : Ledger Levels) : Prop where
  conserved : Conserved ledger
  sound : SoundPool ledger.pool

theorem inv_start : Inv (start Levels) where
  conserved := ⟨by simp [start, empty], by simp [start, empty]⟩
  sound := fun _ alc hmem => absurd hmem List.not_mem_nil

variable {ledger ledger' : Ledger Levels} {op : Op Levels}

theorem Inv.add (h : Inv ledger) (position size : ℕ) (level : Fin Levels)
    (hstep : step ledger (.add position size level) = some ledger') : Inv ledger' := by
  simp only [step, call, Op.extents, Option.map_some, List.append_nil, Option.some.injEq] at hstep
  subst hstep
  refine ⟨⟨?_, ?_⟩, ?_⟩
  · intro u
    have hunits := h.conserved.units u
    have hupdate := sum_load_update u ledger.pool.levels level
      (ledger.pool.levels level ++ [⟨position, size, level⟩])
    simp only [AllocationPool.add, load_append] at hupdate ⊢
    omega
  · intro l
    have htotal := h.conserved.totals l
    by_cases heq : l = level
    · subst heq
      simp only [AllocationPool.add, Function.update_self, List.map_append, List.sum_append, htotal]
      simp
    · simpa [AllocationPool.add, heq] using htotal
  · refine h.sound.update ((h.sound level).append ?_)
    intro alc hmem
    obtain rfl := List.mem_singleton.mp hmem
    exact ⟨rfl, Int.natCast_nonneg size⟩

theorem Inv.allocate (h : Inv ledger) (level : Fin Levels) (amount : ℕ)
    (hok : StepOk ledger (.allocate level amount))
    (hstep : step ledger (.allocate level amount) = some ledger') : Inv ledger' := by
  obtain ⟨out, hout, rfl⟩ := Option.map_eq_some_iff.mp hstep
  have hok : NoRefill ledger.pool level amount := hok
  have hamount := Int.natCast_nonneg amount
  refine ⟨⟨?_, ?_⟩, ?_⟩
  · intro u
    have hunits := h.conserved.units u
    have hload := hok.allocate_load h.sound u hamount hout
    simp only [Op.extents, load_append, load_nil]
    omega
  · exact hok.allocate_totals h.sound h.conserved.totals hamount hout
  · exact hok.allocate_sound h.sound hamount hout

/-- What `allocate_one` gives is the first extent that `allocate` gives. -/
theorem call_allocateOne {pool : AllocationPool Levels} (level : Fin Levels) :
    pool.call (.allocateOne level) =
      (pool.allocate level 1).map fun out => (out.1.head?.toList, out.2) := by
  simp [call, AllocationPool.allocateOne, Function.comp_def]

theorem Inv.allocateOne (h : Inv ledger) (level : Fin Levels)
    (hok : StepOk ledger (.allocateOne level))
    (hstep : step ledger (.allocateOne level) = some ledger') : Inv ledger' := by
  rw [AllocationPool.step, call_allocateOne, Option.map_map] at hstep
  obtain ⟨out, hout, rfl⟩ := Option.map_eq_some_iff.mp hstep
  obtain ⟨hok, hfirst⟩ := hok
  refine ⟨⟨?_, ?_⟩, ?_⟩
  · intro u
    have hunits := h.conserved.units u
    have hload := hok.allocate_load h.sound u Int.one_nonneg hout
    have hgiven : load u out.1.head?.toList = load u out.1 := by
      rcases hok.allocateOne_dropped h.sound h.conserved.totals hfirst hout with
        hnil | ⟨given, dropped, hcons, -, -, hzero⟩
      · simp [hnil]
      · simp [hcons, load_eq_zero hzero]
    simp only [Function.comp_apply, Op.extents, load_append, load_nil]
    omega
  · exact hok.allocate_totals h.sound h.conserved.totals Int.one_nonneg hout
  · exact hok.allocate_sound h.sound Int.one_nonneg hout

/-- A step within the condition loses no unit and hands none out twice. -/
theorem Inv.step (h : Inv ledger) (hok : StepOk ledger op)
    (hstep : AllocationPool.step ledger op = some ledger') : Inv ledger' := by
  cases op with
  | add position size level => exact h.add position size level hstep
  | allocate level amount => exact h.allocate level amount hok hstep
  | allocateOne level => exact h.allocateOne level hok hstep

theorem Inv.servesCall (h : Inv ledger) (hok : StepOk ledger op) : ServesCall ledger op := by
  cases op with
  | add position size level => trivial
  | allocate level amount =>
      have hok : NoRefill ledger.pool level amount := hok
      have hamount := Int.natCast_nonneg amount
      obtain ⟨out, hout⟩ := hok.exists_allocate h.sound hamount
      exact ⟨out, hout, hok.allocate_served h.sound h.conserved.totals hamount hout⟩
  | allocateOne level =>
      obtain ⟨hok, hfirst⟩ := hok
      obtain ⟨out, hout⟩ := hok.exists_allocate h.sound Int.one_nonneg
      refine ⟨_, by rw [call_allocateOne, hout, Option.map_some], ?_⟩
      rcases hok.allocateOne_dropped h.sound h.conserved.totals hfirst hout with
        hnil | ⟨given, dropped, hcons, hsize, hlevel, -⟩
      · have hserved := hok.allocate_served h.sound h.conserved.totals Int.one_nonneg hout
        rcases hserved with hserved | hserved
        · simp [hnil] at hserved
        · exact Or.inr ⟨by simp [hnil], hserved.2⟩
      · exact Or.inl (by simp [hcons, hsize, hlevel])

/-- Where a call of `allocate_one` is not `StepOk`, it gives an empty extent or breaks a total. -/
theorem Inv.allocateOne_size_zero (h : Inv ledger) {level : Fin Levels}
    (hnot : ¬ StepOk ledger (.allocateOne level))
    {out : List AllocationMetadata × AllocationPool Levels}
    (hout : ledger.pool.allocate level 1 = some out)
    (hkept : out.2.totals level = weight (out.2.levels level)) :
    ∃ given, out.1.head? = some given ∧ given.size = 0 := by
  by_cases hrefill : NoRefill ledger.pool level 1
  · have hempty : ∃ alc, (ledger.pool.levels level).head? = some alc ∧
        1 ≤ ledger.pool.totals level ∧ alc.size ≤ 0 := by
      simpa [StepOk, hrefill] using hnot
    obtain ⟨alc, hhead, hown, hsize⟩ := hempty
    have hnonneg := (h.sound level alc (List.mem_of_mem_head? hhead)).2
    rcases hrefill.eq_of_allocate h.sound Int.one_nonneg hout with ⟨-, rfl⟩ | ⟨hless, -⟩
    · have hne : (ledger.pool.handedOut level 1).1 ≠ [] := by
        refine handOut_ne_nil ?_
        intro hnil
        simp [hnil] at hhead
      obtain ⟨given, hgiven⟩ := Option.isSome_iff_exists.mp (List.isSome_head?.mpr hne)
      have hmin : given.size = min 1 alc.size :=
        handOut_head (ledger.pool.totals level) alc hhead given hgiven
      exact ⟨given, hgiven, by omega⟩
    · omega
  · obtain ⟨hne, hless, hsound⟩ := allocate_of_refill h.sound h.conserved.totals
      Int.one_nonneg hrefill hout hkept
    obtain ⟨given, hgiven⟩ := Option.isSome_iff_exists.mp (List.isSome_head?.mpr hne)
    refine ⟨given, hgiven, hsound.sizes_zero ?_ given (List.mem_of_mem_head? hgiven)⟩
    have hnonneg := hsound.weight_nonneg
    omega

/-- A step that is not `StepOk` has no outcome, breaks the totals or does not serve its request. -/
theorem Inv.not_conserved (h : Inv ledger) (hserves : ServesCall ledger op)
    (hnot : ¬ StepOk ledger op) :
    ∃ ledger', AllocationPool.step ledger op = some ledger' ∧ ¬ Conserved ledger' := by
  cases op with
  | add position size level => exact absurd trivial hnot
  | allocate level amount =>
      obtain ⟨out, hout, hserved⟩ := hserves
      refine ⟨_, by rw [AllocationPool.step, hout, Option.map_some], fun hconserved => ?_⟩
      obtain ⟨hne, hless, -⟩ := allocate_of_refill h.sound h.conserved.totals
        (Int.natCast_nonneg amount) hnot hout (hconserved.totals level)
      rcases hserved with ⟨-, hsum⟩ | ⟨hnil, -⟩
      · exact absurd hsum (ne_of_lt hless)
      · exact hne hnil
  | allocateOne level =>
      obtain ⟨out, hout, hserved⟩ := hserves
      refine ⟨_, by rw [AllocationPool.step, hout, Option.map_some], fun hconserved => ?_⟩
      rw [call_allocateOne] at hout
      obtain ⟨out, hallocate, rfl⟩ := Option.map_eq_some_iff.mp hout
      obtain ⟨given, hhead, hzero⟩ :=
        h.allocateOne_size_zero hnot hallocate (hconserved.totals level)
      rcases hserved with ⟨-, hsum⟩ | ⟨hnil, -⟩
      · simp [hhead, hzero] at hsum
      · simp [hhead] at hnil

/-- **When the pool conserves storage.** In a run from the empty pool every state is conserved and
every request is served as asked, if and only if no request is met by a refill or hands out less than
half of the extents of its level, and no `allocate_one` finds an empty extent first. -/
theorem run_conserves_iff (ops : List (Op Levels)) :
    (EveryState step Conserved (start Levels) ops ∧ EveryStep step ServesCall (start Levels) ops) ↔
      EveryStep step StepOk (start Levels) ops := by
  constructor
  · rintro ⟨hstates, hcalls⟩
    exact EveryStep.of_broken (fun _ _ _ hinv hok => hinv.step hok)
      (fun _ _ hinv _ hserves => hinv.not_conserved hserves) inv_start hstates hcalls
  · intro hrun
    have hstep : ∀ (s : Ledger Levels) op s', Inv s → StepOk s op → step s op = some s' → Inv s' :=
      fun _ _ _ hinv hok => hinv.step hok
    exact ⟨EveryState.of_invariant hstep (fun _ hinv => hinv.conserved) inv_start hrun,
      EveryStep.of_invariant hstep (fun _ _ hinv hok => hinv.servesCall hok) inv_start hrun⟩

/-- Two of three extents and half of the last one, and more than there is. -/
example : EveryStep step StepOk (start 9)
    [.add 4 2 0, .add 1 8 3, .add 10 3 0, .add 20 4 0, .allocate 0 7, .allocate 1 40] := by
  decide +kernel

/-- One unit of level 1, and a request for two units of level 0: the two units of the extent are
handed out from the wrong position, and the total drops below zero. -/
theorem run_not_conserved : ¬ ∀ ops : List (Op 9),
    EveryState step Conserved (start 9) ops ∧ EveryStep step ServesCall (start 9) ops := by
  intro h
  have hstates := (h [.add 1 1 1, .allocate 0 2]).1
  have hlast := ((hstates.2 _ rfl).2 _ rfl).totals 0
  revert hlast
  decide +kernel

end AllocationPool

end Memoria

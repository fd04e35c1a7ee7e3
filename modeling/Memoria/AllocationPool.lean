import Mathlib.Algebra.BigOperators.Fin
import Mathlib.Logic.Function.Basic

/-!
# The pool of free extents of a SWMR commit

`AllocationPool` keeps free extents in one `ArenaBuffer` for each level and hands them out. A unit of
level `l` is `2 ^ l` units of level 0. Sizes and positions are 64-bit in the code and stay far below
the bound; here they are integers, since the refill drives some of them below zero. A call gives
`none` where it removes extents with a `memcpy` of ranges that overlap.
-/

namespace Memoria

structure AllocationMetadata where
  position : ℤ
  size : ℤ
  level : ℕ
deriving DecidableEq, Repr

namespace AllocationMetadata

def level0Position (alc : AllocationMetadata) : ℤ :=
  alc.position * 2 ^ alc.level

/-- The extent that is taken, and what is left in place of `alc`. -/
def take (alc : AllocationMetadata) (amount : ℤ) : AllocationMetadata × AllocationMetadata :=
  (⟨alc.position, amount, alc.level⟩,
    { alc with size := alc.size - amount, position := alc.position + amount })

def takeFor (alc : AllocationMetadata) (amount : ℤ) (level : ℕ) :
    AllocationMetadata × AllocationMetadata :=
  (⟨alc.position, amount * 2 ^ (alc.level - level), level⟩,
    { alc with size := alc.size - amount, position := alc.position + amount })

def takeAllFor (alc : AllocationMetadata) (level : ℕ) : AllocationMetadata × AllocationMetadata :=
  -- `position_` moves by the size that the line before has set to zero
  (⟨alc.position, alc.size * 2 ^ (alc.level - level), level⟩,
    { alc with size := 0, position := alc.position + 0 * 2 ^ alc.level })

def Covers (alc : AllocationMetadata) (u : ℤ) : Prop :=
  alc.level0Position ≤ u ∧ u < alc.level0Position + alc.size * 2 ^ alc.level

instance (alc : AllocationMetadata) (u : ℤ) : Decidable (alc.Covers u) :=
  inferInstanceAs (Decidable (_ ∧ _))

end AllocationMetadata

@[ext]
structure AllocationPool (Levels : ℕ) where
  totals : Fin Levels → ℤ
  levels : Fin Levels → List AllocationMetadata
deriving DecidableEq

namespace AllocationPool

variable {Levels : ℕ}

def empty (Levels : ℕ) : AllocationPool Levels :=
  ⟨fun _ => 0, fun _ => []⟩

def add (pool : AllocationPool Levels) (position size : ℤ) (level : Fin Levels) :
    AllocationPool Levels where
  levels := Function.update pool.levels level (pool.levels level ++ [⟨position, size, level⟩])
  totals := Function.update pool.totals level (pool.totals level + size)

/-- `remove(0, cnt)` of the buffer of a level: the other extents are copied to its start. -/
def removeFront (cnt : ℕ) (extents : List AllocationMetadata) : Option (List AllocationMetadata) :=
  if extents.length - cnt ≤ cnt then some (extents.drop cnt) else none

/-- What the refill takes from one level `ll`: the extents appended to the level that is refilled,
the extents of `ll`, how many of them were taken whole, and the new values of `sum` and of the total
of `ll`. -/
structure Taken where
  appended : List AllocationMetadata
  extents : List AllocationMetadata
  cc : ℕ
  sum : ℤ
  total : ℤ

def Taken.left (taken : Taken) : Option (List AllocationMetadata) :=
  if taken.cc < taken.extents.length then removeFront taken.cc taken.extents else some []

def takeFrom (level ll : ℕ) (amount : ℤ) : List AllocationMetadata → ℤ → ℤ → Taken
  | [], sum, total => ⟨[], [], 0, sum, total⟩
  | avl_alc :: rest, sum, total =>
      let ll0_remainder := amount - sum
      let ll0_avl_size := avl_alc.size * 2 ^ (ll - level)
      if ll0_avl_size ≥ ll0_remainder then
        let next := takeFrom level ll amount rest (sum + ll0_avl_size) (total - avl_alc.size)
        { next with
          appended := (avl_alc.takeAllFor level).1 :: next.appended
          extents := (avl_alc.takeAllFor level).2 :: next.extents
          cc := next.cc + 1 }
      else
        let scale_mask : ℤ := 2 ^ ((ll - level + 1) - 1)
        -- `ll0_remainder & scale_mask`: one bit, the one at `ll - level`
        let ll_remainder := (ll0_remainder / 2 ^ (ll - level) +
          if ll0_remainder / scale_mask % 2 ≠ 0 then 1 else 0) * 2 ^ (ll - level)
        let taken := avl_alc.takeFor ll_remainder level
        ⟨[taken.1], taken.2 :: rest, 0, sum, total - ll_remainder⟩

def above (level : Fin Levels) : List (Fin Levels) :=
  (List.finRange Levels).filter (level < ·)

def populateLoop (level : Fin Levels) (amount : ℤ) :
    List (Fin Levels) → ℤ → AllocationPool Levels → Option (AllocationPool Levels)
  | [], _, pool => some pool
  | ll :: lls, sum, pool =>
      if sum < amount then
        let taken := takeFrom level ll amount (pool.levels ll) sum (pool.totals ll)
        taken.left.bind fun left => populateLoop level amount lls taken.sum
          { totals := Function.update pool.totals ll taken.total
            levels := Function.update (Function.update pool.levels ll left) level
              (pool.levels level ++ taken.appended) }
      else some pool

def available (pool : AllocationPool Levels) (level : Fin Levels) : ℤ :=
  ((above level).map fun ll => pool.totals ll * 2 ^ ((ll : ℕ) - level)).sum

def populateLevelFromAbove (pool : AllocationPool Levels) (level : Fin Levels) (amount : ℤ) :
    Option (Bool × AllocationPool Levels) :=
  if pool.available level ≥ amount then
    (populateLoop level amount (above level) 0 pool).map fun pool => (true, pool)
  else some (false, pool)

structure HandedOut where
  handed : List AllocationMetadata
  extents : List AllocationMetadata
  cnt : ℕ
  total : ℤ

def handOut (amount : ℤ) : List AllocationMetadata → ℤ → ℤ → HandedOut
  | [], _, total => ⟨[], [], 0, total⟩
  | alc :: rest, sum, total =>
      if alc.size + sum ≤ amount then
        let next := handOut amount rest (sum + alc.size) (total - alc.size)
        { next with handed := alc :: next.handed, extents := alc :: next.extents, cnt := next.cnt + 1 }
      else
        let remainder := amount - sum
        let taken := alc.take remainder
        ⟨[taken.1], taken.2 :: rest, 0, total - remainder⟩

def handOutAt (pool : AllocationPool Levels) (level : Fin Levels) (amount : ℤ) :
    Option (List AllocationMetadata × AllocationPool Levels) :=
  let out := handOut amount (pool.levels level) 0 (pool.totals level)
  (removeFront out.cnt out.extents).map fun left =>
    (out.handed,
      { totals := Function.update pool.totals level out.total
        levels := Function.update pool.levels level left })

def allocate (pool : AllocationPool Levels) (level : Fin Levels) (amount : ℤ) :
    Option (List AllocationMetadata × AllocationPool Levels) :=
  if pool.totals level < amount then
    match pool.populateLevelFromAbove level (amount - pool.totals level) with
    | none => none
    | some (false, pool) => some ([], pool)
    | some (true, pool) => pool.handOutAt level amount
  else pool.handOutAt level amount

def allocateOne (pool : AllocationPool Levels) (level : Fin Levels) :
    Option (Option AllocationMetadata × AllocationPool Levels) :=
  (pool.allocate level 1).map fun out => (out.1.head?, out.2)

inductive Op (Levels : ℕ) where
  | add (position size : ℕ) (level : Fin Levels)
  | allocate (level : Fin Levels) (amount : ℕ)
  | allocateOne (level : Fin Levels)
deriving DecidableEq

structure Ledger (Levels : ℕ) where
  pool : AllocationPool Levels
  added : List AllocationMetadata
  handed : List AllocationMetadata
deriving DecidableEq

def call (pool : AllocationPool Levels) :
    Op Levels → Option (List AllocationMetadata × AllocationPool Levels)
  | .add position size level => some ([], pool.add position size level)
  | .allocate level amount => pool.allocate level amount
  | .allocateOne level => (pool.allocateOne level).map fun out => (out.1.toList, out.2)

def Op.extents : Op Levels → List AllocationMetadata
  | .add position size level => [⟨position, size, level⟩]
  | _ => []

def step (ledger : Ledger Levels) (op : Op Levels) : Option (Ledger Levels) :=
  (ledger.pool.call op).map fun out =>
    ⟨out.2, ledger.added ++ op.extents, ledger.handed ++ out.1⟩

def start (Levels : ℕ) : Ledger Levels :=
  ⟨empty Levels, [], []⟩

def load (u : ℤ) (extents : List AllocationMetadata) : ℕ :=
  extents.countP (·.Covers u)

structure Conserved (ledger : Ledger Levels) : Prop where
  units : ∀ u, load u ledger.handed + ∑ level, load u (ledger.pool.levels level) =
    load u ledger.added
  totals : ∀ level, ledger.pool.totals level =
    ((ledger.pool.levels level).map (·.size)).sum

/-- What a request for `amount` units of `level` is to give: extents of that level with that sum,
or nothing with the pool unchanged. -/
def Served (pool : AllocationPool Levels) (level : Fin Levels) (amount : ℤ)
    (out : List AllocationMetadata × AllocationPool Levels) : Prop :=
  ((∀ alc ∈ out.1, alc.level = level) ∧ (out.1.map (·.size)).sum = amount) ∨
    (out.1 = [] ∧ out.2 = pool)

def ServesCall (ledger : Ledger Levels) : Op Levels → Prop
  | .add .. => True
  | .allocate level amount => ∃ out, ledger.pool.call (.allocate level amount) = some out ∧
      Served ledger.pool level amount out
  | .allocateOne level => ∃ out, ledger.pool.call (.allocateOne level) = some out ∧
      Served ledger.pool level 1 out

def HalfFits (amount : ℤ) (extents : List AllocationMetadata) : Prop :=
  ((extents.take ((extents.length + 1) / 2)).map (·.size)).sum ≤ amount

/-- The request is served from its own level, of which at least half of the extents go, or cannot be
served from all levels together. -/
def NoRefill (pool : AllocationPool Levels) (level : Fin Levels) (amount : ℤ) : Prop :=
  (amount ≤ pool.totals level ∧ HalfFits amount (pool.levels level)) ∨
    (pool.totals level < amount ∧ pool.available level < amount - pool.totals level)

/-- No refill takes place, no ranges that overlap are copied, and `allocate_one` does not meet an
empty extent first. -/
def StepOk (ledger : Ledger Levels) : Op Levels → Prop
  | .add .. => True
  | .allocate level amount => NoRefill ledger.pool level amount
  | .allocateOne level => NoRefill ledger.pool level 1 ∧
      ∀ alc, (ledger.pool.levels level).head? = some alc → 1 ≤ ledger.pool.totals level → 0 < alc.size

instance (amount : ℤ) (extents : List AllocationMetadata) : Decidable (HalfFits amount extents) :=
  inferInstanceAs (Decidable (_ ≤ _))

instance (pool : AllocationPool Levels) (level : Fin Levels) (amount : ℤ) :
    Decidable (NoRefill pool level amount) :=
  inferInstanceAs (Decidable ((_ ∧ _) ∨ (_ ∧ _)))

instance (ledger : Ledger Levels) : ∀ op, Decidable (StepOk ledger op)
  | .add .. => inferInstanceAs (Decidable True)
  | .allocate .. => inferInstanceAs (Decidable (NoRefill ..))
  | .allocateOne _ => inferInstanceAs (Decidable (NoRefill .. ∧ _))

end AllocationPool

end Memoria

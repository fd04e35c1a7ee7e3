import Mathlib.Data.Nat.Size
import Memoria.Lib.Cells

/-!
# Codecs

A codec writes a value at a place of a buffer and reads it back. When the units it writes are the
code of the value, and when it reads the value wherever that code stands, then it reads back what it
has written, and a row of codes is read back as the list that was written. Numbers are written as
their bytes, the lowest first.
-/

namespace Memoria.Lib

def byteLen (v : ℕ) : ℕ := (v.size + 7) / 8

theorem byteLen_le_iff {v n : ℕ} : byteLen v ≤ n ↔ v < 256 ^ n := by
  have hpow : 256 ^ n = 2 ^ (8 * n) := by
    rw [Nat.pow_mul]
  rw [hpow, ← Nat.size_le, byteLen]
  omega

theorem lt_byteLen_iff {v n : ℕ} : n < byteLen v ↔ 256 ^ n ≤ v := by
  rw [← Nat.not_le, byteLen_le_iff, Nat.not_lt]

theorem byteLen_zero : byteLen 0 = 0 := by
  rw [byteLen, Nat.size_zero]

/-- The number of bytes is determined by the powers around the number. -/
theorem byteLen_eq {v n : ℕ} (hlow : 256 ^ n ≤ v) (hhigh : v < 256 ^ (n + 1)) :
    byteLen v = n + 1 :=
  Nat.le_antisymm (byteLen_le_iff.mpr hhigh) (lt_byteLen_iff.mpr hlow)

theorem byteLen_of_pos {v : ℕ} (h : 0 < v) : byteLen v = byteLen (v / 256) + 1 := by
  apply Nat.le_antisymm
  · rw [byteLen_le_iff, Nat.pow_succ]
    have hlt : v / 256 < 256 ^ byteLen (v / 256) := byteLen_le_iff.mp (Nat.le_refl _)
    omega
  · rw [Nat.succ_le_iff, lt_byteLen_iff]
    rcases Nat.eq_zero_or_pos (byteLen (v / 256)) with hz | hpos
    · rw [hz]
      exact h
    · have hle : 256 ^ (byteLen (v / 256) - 1) ≤ v / 256 := lt_byteLen_iff.mp (by omega)
      rw [show byteLen (v / 256) = byteLen (v / 256) - 1 + 1 by omega, Nat.pow_succ]
      omega

def byteAt (v c : ℕ) : BitVec 8 := BitVec.ofNat 8 (v / 256 ^ c)

theorem byteAt_succ (v c : ℕ) : byteAt v (c + 1) = byteAt (v / 256) c := by
  rw [byteAt, byteAt, Nat.pow_succ, Nat.mul_comm, Nat.div_div_eq_div_mul]

def valueOf (bytes : ℕ → BitVec 8) : ℕ → ℕ
  | 0 => 0
  | n + 1 => (bytes 0).toNat + 256 * valueOf (fun i => bytes (i + 1)) n

theorem valueOf_congr {bytes bytes' : ℕ → BitVec 8} {n : ℕ} (h : ∀ i < n, bytes i = bytes' i) :
    valueOf bytes n = valueOf bytes' n := by
  induction n generalizing bytes bytes' with
  | zero => rfl
  | succ n ih =>
      rw [valueOf, valueOf, h 0 (Nat.succ_pos n), ih fun i hi => h (i + 1) (Nat.succ_lt_succ hi)]

theorem valueOf_byteAt (v n : ℕ) : valueOf (byteAt v) n = v % 256 ^ n := by
  induction n generalizing v with
  | zero => rw [valueOf, Nat.pow_zero, Nat.mod_one]
  | succ n ih =>
      have hrest : (fun i => byteAt v (i + 1)) = byteAt (v / 256) := by
        funext i
        exact byteAt_succ v i
      have hlow : (byteAt v 0).toNat = v % 256 := by
        rw [byteAt, Nat.pow_zero, Nat.div_one, BitVec.toNat_ofNat]
      rw [valueOf, hrest, ih, hlow, Nat.pow_succ, Nat.mul_comm (256 ^ n), Nat.mod_mul]

theorem byteAt_zero {w : ℕ} (value : BitVec w) : byteAt value.toNat 0 = value.setWidth 8 := by
  apply BitVec.eq_of_toNat_eq
  rw [byteAt, Nat.pow_zero, Nat.div_one, BitVec.toNat_ofNat, BitVec.toNat_setWidth]

section Headed

variable {α : Type}

def headed (header : α) (body : ℕ → α) : ℕ → α
  | 0 => header
  | i + 1 => body i

theorem headed_body (header : α) (body : ℕ → α) (i : ℕ) : headed header body (1 + i) = body i := by
  rw [Nat.add_comm, headed]

/-- The header is written first. -/
theorem written_update (seq body : ℕ → α) (header : α) (idx n : ℕ) :
    written (Function.update seq idx header) (idx + 1) n body =
      written seq idx (1 + n) (headed header body) := by
  have hheader : Function.update seq idx header = written seq idx 1 (headed header body) := by
    rw [update_eq_written]
    apply written_congr
    intro i hi
    rw [Nat.lt_one_iff.mp hi, headed]
  have hbody : body = fun i => headed header body (1 + i) := by
    funext i
    rw [headed_body]
  rw [hheader, ← written_written seq (headed header body), ← hbody]

/-- The header is written last. -/
theorem update_written (seq body : ℕ → α) (header : α) (idx n : ℕ) :
    Function.update (written seq (idx + 1) n body) idx header =
      written seq idx (1 + n) (headed header body) := by
  rw [← written_update]
  funext i
  rw [Function.update_apply]
  split_ifs with hi
  · rw [hi, written_of_lt (Nat.lt_succ_self idx), Function.update_self]
  · simp only [written, Function.update_of_ne hi]

theorem headed_byteAt (v : ℕ) : headed (byteAt v 0) (byteAt (v / 256)) = byteAt v := by
  funext i
  cases i with
  | zero => rfl
  | succ i => exact (byteAt_succ v i).symm

/-- Of two updates of one place the later one counts. -/
theorem update_written_update (seq vals : ℕ → α) (i idx n : ℕ) (a b : α) :
    Function.update (written (Function.update seq i a) idx n vals) i b =
      Function.update (written seq idx n vals) i b := by
  funext j
  by_cases hj : j = i
  · rw [hj, Function.update_self, Function.update_self]
  · rw [Function.update_of_ne hj, Function.update_of_ne hj]
    simp only [written, Function.update_of_ne hj]

end Headed

structure Codec (B V : Type) where
  length : V → ℕ
  lengthAt : B → ℕ → ℕ
  encode : B → V → ℕ → B × ℕ
  decode : B → ℕ → V × ℕ
  fits : ℕ → Prop := fun _ => True
  fits_of_le : ∀ {m n}, m ≤ n → fits n → fits m := by exact fun _ h => h

namespace Codec

variable {B V α : Type} (codec : Codec B V) (view : B → ℕ → α)

structure RoundTrips (buf : B) (v : V) (idx : ℕ) : Prop where
  encode_length : (codec.encode buf v idx).2 = codec.length v
  lengthAt : codec.lengthAt (codec.encode buf v idx).1 idx = codec.length v
  decode : codec.decode (codec.encode buf v idx).1 idx = (v, codec.length v)
  frame : ∀ i, i < idx ∨ idx + codec.length v ≤ i →
    view (codec.encode buf v idx).1 i = view buf i

structure Codes (v : V) (code : ℕ → α) : Prop where
  encode_length : ∀ buf idx, (codec.encode buf v idx).2 = codec.length v
  writes : ∀ buf idx,
    view (codec.encode buf v idx).1 = written (view buf) idx (codec.length v) code
  reads : ∀ buf idx, codec.fits (idx + codec.length v) →
    (∀ i < codec.length v, view buf (idx + i) = code i) →
    codec.lengthAt buf idx = codec.length v ∧ codec.decode buf idx = (v, codec.length v)

variable {codec view} {v : V} {code : ℕ → α}

theorem Codes.roundTrips (h : codec.Codes view v code) (buf : B) {idx : ℕ}
    (hfits : codec.fits (idx + codec.length v)) : codec.RoundTrips view buf v idx := by
  obtain ⟨hlength, hdecode⟩ := h.reads (codec.encode buf v idx).1 idx hfits (by
    intro i hi
    rw [h.writes, written_of_mem hi])
  refine ⟨h.encode_length buf idx, hlength, hdecode, ?_⟩
  rintro i (hlt | hge)
  · rw [h.writes, written_of_lt hlt]
  · rw [h.writes, written_of_ge hge]

variable (codec)

def encodeAll : List V → B → ℕ → B × ℕ
  | [], buf, idx => (buf, idx)
  | v :: vs, buf, idx => encodeAll vs (codec.encode buf v idx).1 (idx + (codec.encode buf v idx).2)

def decodeAll : ℕ → B → ℕ → List V × ℕ
  | 0, _, idx => ([], idx)
  | n + 1, buf, idx =>
      let (v, len) := codec.decode buf idx
      let (vs, stop) := decodeAll n buf (idx + len)
      (v :: vs, stop)

variable {codec}

theorem encodeAll_below {vs : List V} (h : ∀ v ∈ vs, ∃ code, codec.Codes view v code) (buf : B)
    {idx i : ℕ} (hi : i < idx) : view (codec.encodeAll vs buf idx).1 i = view buf i := by
  induction vs generalizing buf idx with
  | nil => rfl
  | cons v vs ih =>
      obtain ⟨code, hcode⟩ := h v List.mem_cons_self
      rw [encodeAll, ih (fun u hu => h u (List.mem_cons_of_mem v hu)) _
        (Nat.lt_of_lt_of_le hi (Nat.le_add_right _ _)), hcode.writes, written_of_lt hi]

theorem le_encodeAll (vs : List V) (buf : B) (idx : ℕ) : idx ≤ (codec.encodeAll vs buf idx).2 := by
  induction vs generalizing buf idx with
  | nil => exact Nat.le_refl idx
  | cons v vs ih => exact Nat.le_trans (Nat.le_add_right _ _) (ih _ _)

/-- A row of codes is read back as the list. -/
theorem decodeAll_encodeAll {vs : List V} (h : ∀ v ∈ vs, ∃ code, codec.Codes view v code) (buf : B)
    (idx : ℕ) (hfits : codec.fits (codec.encodeAll vs buf idx).2) :
    codec.decodeAll vs.length (codec.encodeAll vs buf idx).1 idx =
      (vs, (codec.encodeAll vs buf idx).2) := by
  induction vs generalizing buf idx with
  | nil => rfl
  | cons v vs ih =>
      obtain ⟨code, hcode⟩ := h v List.mem_cons_self
      have hrest := fun u hu => h u (List.mem_cons_of_mem v hu)
      have hend := hcode.encode_length buf idx
      rw [encodeAll, hend] at hfits ⊢
      have hbound : idx + codec.length v ≤ (codec.encodeAll vs (codec.encode buf v idx).1
          (idx + codec.length v)).2 := le_encodeAll vs _ _
      -- The later codes stand behind this one, and leave it as it was written.
      have hread := (hcode.reads (codec.encodeAll vs (codec.encode buf v idx).1
        (idx + codec.length v)).1 idx (codec.fits_of_le hbound hfits) (by
          intro i hi
          rw [encodeAll_below hrest _ (Nat.add_lt_add_left hi idx), hcode.writes,
            written_of_mem hi])).2
      rw [List.length_cons, decodeAll, hread]
      dsimp only
      rw [ih hrest _ _ hfits]

variable (codec view)

structure ReadsBack (good : V → Prop) : Prop where
  value : ∀ buf v idx, codec.fits (idx + (codec.encode buf v idx).2) →
    (codec.RoundTrips view buf v idx ↔ good v)
  list : ∀ vs, (∀ v ∈ vs, good v) → ∀ buf idx, codec.fits (codec.encodeAll vs buf idx).2 →
    codec.decodeAll vs.length (codec.encodeAll vs buf idx).1 idx =
      (vs, (codec.encodeAll vs buf idx).2)

variable {codec view}

theorem ReadsBack.of_codes {good : V → Prop} (code : V → ℕ → α)
    (hgood : ∀ v, good v → codec.Codes view v (code v))
    (hbad : ∀ buf v idx, codec.RoundTrips view buf v idx → good v) : codec.ReadsBack view good where
  value buf v idx hfits := by
    refine ⟨hbad buf v idx, fun h => (hgood v h).roundTrips buf ?_⟩
    rw [(hgood v h).encode_length] at hfits
    exact hfits
  list vs h buf idx hfits := decodeAll_encodeAll (fun v hv => ⟨_, hgood v (h v hv)⟩) buf idx hfits

end Codec

end Memoria.Lib

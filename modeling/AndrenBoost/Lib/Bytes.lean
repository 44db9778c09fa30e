import Mathlib.Order.Defs.LinearOrder
import Mathlib.Data.List.Basic
import Mathlib.Tactic.Common
import Mathlib.Tactic.Ring

/-!
# Byte strings and little-endian fields

A byte string is a list of bytes.  Fixed-width integers are stored in it least
significant byte first, and read back from a position; reading past the end
yields zero bytes, so a caller that must stay in bounds says so itself.

## Main definitions

* `Bytes`, `ascii` — byte strings, and the bytes of an ASCII literal.
* `leBytes n x`, `leNat l` — the `n` little-endian bytes of `x`, and the number
  a byte string spells.
* `slice off n s` — the bytes `[off, off + n)` of `s`.

## Main results

* `leNat_leBytes` — reading back what was written.
* `slice_append_left`, `slice_append_right` — fields of a concatenation.
-/

/-- A byte string. -/
abbrev Bytes := List UInt8

/-- The bytes of an ASCII literal. -/
def ascii (s : String) : Bytes := s.toList.map fun c => c.toNat.toUInt8

/-- The bytes in their numeric order. -/
instance UInt8.linearOrder : LinearOrder UInt8 where
  le_refl := UInt8.le_refl
  le_trans := fun _ _ _ => UInt8.le_trans
  le_antisymm := fun _ _ => UInt8.le_antisymm
  le_total := UInt8.le_total
  lt_iff_le_not_ge := fun a b => by
    rw [UInt8.lt_iff_toNat_lt, UInt8.le_iff_toNat_le, UInt8.le_iff_toNat_le]
    omega
  toDecidableLE := inferInstance
  toDecidableLT := inferInstance
  toDecidableEq := inferInstance

/-- The 64-bit words in their numeric order. -/
instance UInt64.linearOrder : LinearOrder UInt64 where
  le_refl := UInt64.le_refl
  le_trans := fun _ _ _ => UInt64.le_trans
  le_antisymm := fun _ _ => UInt64.le_antisymm
  le_total := UInt64.le_total
  lt_iff_le_not_ge := fun a b => by
    rw [UInt64.lt_iff_toNat_lt, UInt64.le_iff_toNat_le, UInt64.le_iff_toNat_le]
    omega
  toDecidableLE := inferInstance
  toDecidableLT := inferInstance
  toDecidableEq := inferInstance

/-! ### Little-endian numbers -/

/-- The `n` low bytes of `x`, least significant first. -/
def leBytes : ℕ → ℕ → Bytes
  | 0, _ => []
  | n + 1, x => UInt8.ofNat x :: leBytes n (x / 256)

/-- The number a byte string spells, least significant byte first. -/
def leNat : Bytes → ℕ
  | [] => 0
  | b :: bs => b.toNat + 256 * leNat bs

@[simp] theorem length_leBytes (n x : ℕ) : (leBytes n x).length = n := by
  induction n generalizing x with
  | zero => rfl
  | succ n ih => rw [leBytes, List.length_cons, ih]

/-- Reading back what was written. -/
theorem leNat_leBytes {n x : ℕ} (h : x < 256 ^ n) : leNat (leBytes n x) = x := by
  induction n generalizing x with
  | zero => simp only [pow_zero, Nat.lt_one_iff] at h; rw [h]; rfl
  | succ n ih =>
    have hdiv : x / 256 < 256 ^ n := by
      rw [Nat.div_lt_iff_lt_mul (by decide), ← pow_succ]
      exact h
    have hbyte : (UInt8.ofNat x).toNat = x % 256 := UInt8.toNat_ofNat'
    rw [leBytes, leNat, ih hdiv, hbyte]
    omega

/-! ### Slices -/

/-- The bytes `[off, off + n)` of `s`, fewer if `s` ends before. -/
def slice (off n : ℕ) (s : Bytes) : Bytes := (s.drop off).take n

theorem length_slice {off n : ℕ} {s : Bytes} (h : off + n ≤ s.length) :
    (slice off n s).length = n := by
  rw [slice, List.length_take, List.length_drop]
  omega

/-- A field that is the front of the string. -/
theorem slice_append_left {s : Bytes} (t : Bytes) {n : ℕ} (h : s.length = n) :
    slice 0 n (s ++ t) = s := by
  rw [slice, List.drop_zero, ← h, List.take_left']
  rfl

/-- A field beyond the front of the string. -/
theorem slice_append_right {s : Bytes} (t : Bytes) {off k : ℕ} (n : ℕ)
    (h : s.length + k = off) : slice off n (s ++ t) = slice k n t := by
  rw [slice, slice, List.drop_append, List.drop_eq_nil_of_le (by omega), List.nil_append]
  congr 2
  omega

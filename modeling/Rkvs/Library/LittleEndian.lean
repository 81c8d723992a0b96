import Mathlib.Tactic.Ring
import Mathlib.Tactic.NormNum

/-!
# Fixed-width little-endian integers

`leBytes w n` writes `n` into `w` bytes, least significant byte first, and drops what does
not fit, as the integer-to-bytes conversions of fixed-width machine types do. `leValue`
reads a byte string back. Reading undoes writing below `256 ^ w`; the two halves of a longer
buffer read independently.
-/

set_option autoImplicit false

namespace Rkvs.Library

/-- The `w` low bytes of `n`, least significant first. -/
def leBytes : ℕ → ℕ → List UInt8
  | 0, _ => []
  | w + 1, n => UInt8.ofNat n :: leBytes w (n / 256)

/-- The number whose little-endian bytes are given. -/
def leValue : List UInt8 → ℕ
  | [] => 0
  | b :: bs => b.toNat + 256 * leValue bs

@[simp] theorem leBytes_length (w n : ℕ) : (leBytes w n).length = w := by
  induction w generalizing n with
  | zero => rfl
  | succ w ih => simp [leBytes, ih]

/-- INTERNAL: reading back `w` written bytes gives the number modulo `256 ^ w`. -/
theorem leValue_leBytes_mod (w n : ℕ) : leValue (leBytes w n) = n % 256 ^ w := by
  induction w generalizing n with
  | zero => simp [leBytes, leValue, Nat.mod_one]
  | succ w ih =>
    have hhead : (UInt8.ofNat n).toNat = n % 256 := by simp
    rw [leBytes, leValue, ih, hhead, pow_succ', Nat.mod_mul]

/-- A number that fits in `w` bytes survives the round trip. -/
theorem leValue_leBytes {w n : ℕ} (h : n < 256 ^ w) : leValue (leBytes w n) = n := by
  rw [leValue_leBytes_mod, Nat.mod_eq_of_lt h]

/-- INTERNAL: a number is written with zeros behind it into a wider field. -/
theorem leBytes_zeros {w n : ℕ} (v : ℕ) (h : n < 256 ^ w) :
    leBytes w n ++ List.replicate v 0 = leBytes (w + v) n := by
  induction w generalizing n with
  | zero =>
    obtain rfl : n = 0 := by simpa using h
    rw [Nat.zero_add]
    induction v with
    | zero => rfl
    | succ v ih =>
      rw [List.replicate_succ]
      show 0 :: (leBytes 0 0 ++ List.replicate v 0) = UInt8.ofNat 0 :: leBytes v (0 / 256)
      rw [ih, Nat.zero_div]
      rfl
  | succ w ih =>
    have hdiv : n / 256 < 256 ^ w := by
      rw [pow_succ] at h
      omega
    rw [Nat.succ_add, leBytes, leBytes, List.cons_append, ih hdiv]

/-- INTERNAL: `l.length` bytes never hold more than `256 ^ l.length - 1`. -/
theorem leValue_lt (l : List UInt8) : leValue l < 256 ^ l.length := by
  induction l with
  | nil => simp [leValue]
  | cons b bs ih =>
    have hb : b.toNat < 256 := b.toNat_lt
    rw [leValue, List.length_cons, pow_succ]
    omega

/-- INTERNAL: writing back a read byte string gives the byte string. -/
theorem leBytes_leValue (l : List UInt8) : leBytes l.length (leValue l) = l := by
  induction l with
  | nil => rfl
  | cons b bs ih =>
    have hb : b.toNat < 256 := b.toNat_lt
    have hdiv : (b.toNat + 256 * leValue bs) / 256 = leValue bs := by omega
    have hmod : UInt8.ofNat (b.toNat + 256 * leValue bs) = b := by
      apply UInt8.toNat.inj
      simp only [UInt8.toNat_ofNat']
      omega
    rw [List.length_cons, leValue, leBytes, hdiv, ih, hmod]

end Rkvs.Library

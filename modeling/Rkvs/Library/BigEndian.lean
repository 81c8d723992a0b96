import Rkvs.Library.LittleEndian

/-!
# Fixed-width big-endian integers

The same numbers with the most significant byte first, as network protocols write them.
-/

set_option autoImplicit false

namespace Rkvs.Library

/-- The `w` low bytes of `n`, most significant first. -/
def beBytes (w n : ℕ) : List UInt8 := (leBytes w n).reverse

/-- The number whose big-endian bytes are given. -/
def beValue (l : List UInt8) : ℕ := leValue l.reverse

@[simp] theorem beBytes_length (w n : ℕ) : (beBytes w n).length = w := by
  rw [beBytes, List.length_reverse, leBytes_length]

theorem beValue_beBytes_mod (w n : ℕ) : beValue (beBytes w n) = n % 256 ^ w := by
  rw [beValue, beBytes, List.reverse_reverse, leValue_leBytes_mod]

/-- A number that fits in `w` bytes survives the round trip. -/
theorem beValue_beBytes {w n : ℕ} (h : n < 256 ^ w) : beValue (beBytes w n) = n := by
  rw [beValue_beBytes_mod, Nat.mod_eq_of_lt h]

/-- INTERNAL: writing back a read byte string gives the byte string. -/
theorem beBytes_beValue (l : List UInt8) : beBytes l.length (beValue l) = l := by
  have hback := leBytes_leValue l.reverse
  rw [List.length_reverse] at hback
  rw [beBytes, beValue, hback, List.reverse_reverse]

end Rkvs.Library

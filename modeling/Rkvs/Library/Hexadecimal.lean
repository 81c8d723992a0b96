import Mathlib.Data.String.Basic
import Mathlib.Tactic.Ring
import Mathlib.Tactic.IntervalCases

/-!
# Fixed-width hexadecimal numerals

`hexPad w n` is the lower-case hexadecimal numeral of `n` filled up with zeros on the left to
`w` digits. `parseHex` reads a numeral back. Below `16 ^ w` the numeral determines the
number, and numerals of one width compare letter by letter as the numbers compare.
-/

set_option autoImplicit false

namespace Rkvs.Library

/-- The hexadecimal numeral of `n`, padded with zeros to at least `w` digits. -/
def hexPad (w n : ℕ) : List Char := List.leftpad w '0' (Nat.toDigits 16 n)

/-- The value of one hexadecimal digit of either case. -/
def hexDigit? (c : Char) : Option ℕ :=
  if '0' ≤ c ∧ c ≤ '9' then some (c.toNat - 48)
  else if 'a' ≤ c ∧ c ≤ 'f' then some (c.toNat - 87)
  else if 'A' ≤ c ∧ c ≤ 'F' then some (c.toNat - 55)
  else none

/-- The number a string of hexadecimal digits denotes. -/
def parseHex (cs : List Char) : Option ℕ :=
  cs.foldlM (fun acc c => (hexDigit? c).map (acc * 16 + ·)) 0

/-- INTERNAL: exactly `w` digits of `n`, written from the last one. -/
def hexFixed : ℕ → ℕ → List Char
  | 0, _ => []
  | w + 1, n => hexFixed w (n / 16) ++ [Nat.digitChar (n % 16)]

@[simp] theorem hexFixed_length (w n : ℕ) : (hexFixed w n).length = w := by
  induction w generalizing n with
  | zero => rfl
  | succ w ih => simp [hexFixed, ih]

/-- INTERNAL: zero is written as zeros. -/
theorem hexFixed_zero (w : ℕ) : hexFixed w 0 = List.replicate w '0' := by
  induction w with
  | zero => rfl
  | succ w ih =>
    rw [hexFixed, Nat.zero_div, ih, List.replicate_succ']
    rfl

/-- INTERNAL: padding commutes with the last digit. -/
theorem leftpad_succ_append (w : ℕ) (l : List Char) (c : Char) :
    List.leftpad (w + 1) '0' (l ++ [c]) = List.leftpad w '0' l ++ [c] := by
  simp [List.leftpad]

/-- INTERNAL: a number below `16 ^ w` has a numeral of exactly `w` digits. -/
theorem hexPad_eq_hexFixed {w n : ℕ} (hw : 0 < w) (h : n < 16 ^ w) :
    hexPad w n = hexFixed w n := by
  induction w generalizing n with
  | zero => omega
  | succ w ih =>
    unfold hexPad
    by_cases hn : n < 16
    · rw [Nat.toDigits_of_lt_base hn, hexFixed, Nat.div_eq_of_lt hn, hexFixed_zero,
        Nat.mod_eq_of_lt hn]
      simp [List.leftpad]
    · have hw' : 0 < w := by
        rcases Nat.eq_zero_or_pos w with rfl | hpos
        · simp at h; omega
        · exact hpos
      have hdiv : n / 16 < 16 ^ w := by
        rw [pow_succ] at h
        omega
      rw [Nat.toDigits_of_base_le (by norm_num) (by omega), leftpad_succ_append, hexFixed]
      congr 1
      exact ih hw' hdiv

/-- INTERNAL: every digit that is written is read back. -/
theorem hexDigit?_digitChar {d : ℕ} (hd : d < 16) : hexDigit? (Nat.digitChar d) = some d := by
  interval_cases d <;> rfl

/-- INTERNAL: reading one more digit shifts the value by one place. -/
theorem parseHex_append_digit (cs : List Char) (c : Char) :
    parseHex (cs ++ [c]) = (parseHex cs).bind fun v => (hexDigit? c).map (v * 16 + ·) := by
  simp [parseHex, List.foldlM_append]

/-- INTERNAL: the `w`-digit numeral denotes the number modulo `16 ^ w`. -/
theorem parseHex_hexFixed (w n : ℕ) : parseHex (hexFixed w n) = some (n % 16 ^ w) := by
  induction w generalizing n with
  | zero => simp [hexFixed, parseHex, Nat.mod_one]
  | succ w ih =>
    rw [hexFixed, parseHex_append_digit, ih, Option.bind_some,
      hexDigit?_digitChar (Nat.mod_lt n (by norm_num)), Option.map_some, pow_succ',
      Nat.mod_mul, Nat.add_comm, Nat.mul_comm]

/-- INTERNAL: digits are ordered as characters. -/
theorem digitChar_lt {a b : ℕ} (hab : a < b) (hb : b < 16) :
    Nat.digitChar a < Nat.digitChar b := by
  have ha : a < 16 := by omega
  interval_cases b <;> interval_cases a <;> first | omega | decide

/-- INTERNAL: the first digits and the last digits of a numeral are numerals themselves. -/
theorem hexFixed_add (v w n : ℕ) :
    hexFixed (v + w) n = hexFixed v (n / 16 ^ w) ++ hexFixed w n := by
  induction w generalizing n with
  | zero => simp [hexFixed]
  | succ w ih =>
    show hexFixed (v + w) (n / 16) ++ _ = _
    rw [ih, hexFixed, List.append_assoc, Nat.div_div_eq_div_mul, ← pow_succ']

/-- INTERNAL: a strictly smaller string stays smaller when strings of any contents follow
it and its rival, if the two have one length. -/
theorem append_lt_append {l m : List Char} (h : l < m) (hlen : l.length = m.length)
    (r s : List Char) : l ++ r < m ++ s := by
  induction l generalizing m with
  | nil =>
    cases m with
    | nil => exact absurd h (List.not_lt_nil _)
    | cons b m => simp at hlen
  | cons a l ih =>
    cases m with
    | nil => simp at hlen
    | cons b m =>
      rw [List.cons_append, List.cons_append, List.cons_lt_cons_iff]
      rcases List.cons_lt_cons_iff.mp h with hlt | ⟨rfl, hlt⟩
      · exact Or.inl hlt
      · exact Or.inr ⟨rfl, ih hlt (by simpa using hlen)⟩

/-- INTERNAL: a common beginning does not matter for the comparison. -/
theorem append_left_lt {r s : List Char} (l : List Char) (h : r < s) : l ++ r < l ++ s := by
  induction l with
  | nil => exact h
  | cons a l ih => exact List.cons_lt_cons_iff.mpr (Or.inr ⟨rfl, ih⟩)

/-- INTERNAL: numerals of one width grow with the number. -/
theorem hexFixed_lt {w a b : ℕ} (hab : a < b) (hb : b < 16 ^ w) :
    hexFixed w a < hexFixed w b := by
  induction w generalizing a b with
  | zero => simp at hb; omega
  | succ w ih =>
    have hb' : b / 16 < 16 ^ w := by
      rw [pow_succ] at hb
      omega
    rcases Nat.lt_or_ge (a / 16) (b / 16) with hlt | hge
    · exact append_lt_append (ih hlt hb') (by simp) _ _
    · have heq : a / 16 = b / 16 := by omega
      rw [hexFixed, hexFixed, heq]
      apply append_left_lt
      exact List.cons_lt_cons_iff.mpr
        (Or.inl (digitChar_lt (by omega) (Nat.mod_lt b (by norm_num))))

end Rkvs.Library

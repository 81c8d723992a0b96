import Mathlib.Order.Bounds.Basic
import Mathlib.Order.MinMax
import Mathlib.Data.List.Induction

/-!
# The highest value in a list

The loop that goes over a list and keeps the highest value that it has seen, starting from zero.
-/

set_option autoImplicit false

namespace Rkvs.Library

section
variable {α : Type} (f : α → ℕ)

/-- The highest value of `f` in a list; zero in an empty one. -/
def highest (xs : List α) : ℕ := xs.foldl (fun res x => if f x > res then f x else res) 0

/-- INTERNAL: one more element. -/
theorem highest_append_singleton (xs : List α) (x : α) :
    highest f (xs ++ [x]) = max (highest f xs) (f x) := by
  unfold highest
  rw [List.foldl_append, List.foldl_cons, List.foldl_nil]
  split <;> omega

/-- The loop ends within a bound if it starts within it and all values are. -/
theorem foldl_highest_le_iff {xs : List α} {a n : ℕ} :
    xs.foldl (fun res x => if f x > res then f x else res) a ≤ n ↔ a ≤ n ∧ ∀ x ∈ xs, f x ≤ n := by
  induction xs generalizing a with
  | nil => simp
  | cons x xs ih =>
    have hstep : (if f x > a then f x else a) ≤ n ↔ a ≤ n ∧ f x ≤ n := by
      split <;> omega
    rw [List.foldl_cons, ih, hstep, List.forall_mem_cons, and_assoc]

theorem highest_le_iff {xs : List α} {n : ℕ} : highest f xs ≤ n ↔ ∀ x ∈ xs, f x ≤ n := by
  unfold highest
  rw [foldl_highest_le_iff, and_iff_right (Nat.zero_le n)]

theorem le_highest {xs : List α} {x : α} (h : x ∈ xs) : f x ≤ highest f xs :=
  (highest_le_iff f).mp (le_refl _) x h

/-- The highest value is that of an element. -/
theorem exists_eq_highest {xs : List α} (h : xs ≠ []) : ∃ x ∈ xs, f x = highest f xs := by
  induction xs using List.reverseRecOn with
  | nil => exact absurd rfl h
  | append_singleton xs x ih =>
    rw [highest_append_singleton]
    by_cases hle : highest f xs ≤ f x
    · exact ⟨x, by simp, (max_eq_right hle).symm⟩
    · have hne : xs ≠ [] := by
        rintro rfl
        exact hle (Nat.zero_le _)
      obtain ⟨y, hy, heq⟩ := ih hne
      exact ⟨y, List.mem_append_left _ hy, heq.trans (max_eq_left (Nat.le_of_not_le hle)).symm⟩

/-- The highest value of a rear part is that of the whole list if and only if every element in front
of it has one in it that is at least as high. -/
theorem isGreatest_rear_iff {xs ys : List α} (h : ys ≠ []) :
    IsGreatest {n | ∃ x ∈ xs ++ ys, f x = n} (highest f ys) ↔ ∀ x ∈ xs, ∃ y ∈ ys, f x ≤ f y := by
  obtain ⟨top, htop, heq⟩ := exists_eq_highest f h
  constructor
  · rintro ⟨-, hbound⟩ x hx
    exact ⟨top, htop, heq ▸ hbound ⟨x, List.mem_append_left _ hx, rfl⟩⟩
  · intro hall
    refine ⟨⟨top, List.mem_append_right _ htop, heq⟩, ?_⟩
    rintro _ ⟨x, hx, rfl⟩
    obtain hx | hx := List.mem_append.mp hx
    · obtain ⟨y, hy, hle⟩ := hall x hx
      exact hle.trans (le_highest f hy)
    · exact le_highest f hx

end

end Rkvs.Library

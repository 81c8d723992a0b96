import Mathlib.Data.List.Nodup
import Mathlib.Data.Nat.Notation
import Mathlib.Logic.Function.Basic

/-!
# Lists that track a property

A queue or a pool holds the numbers of the objects that are in a certain phase. When one object gets
to another phase, its number is added or removed, or the list stays as it is. The weights of the
phases of finitely many objects have a total, which changes by the difference at the one that moves.
-/

set_option autoImplicit false

namespace Rkvs.Library

variable {α : Type} {P : α → Prop} {f : ℕ → α} {l : List ℕ} {i : ℕ} {a : α}

/-- The list has every number with the property once. -/
structure Tracks (P : α → Prop) (f : ℕ → α) (l : List ℕ) : Prop where
  nodup : l.Nodup
  mem : ∀ i, i ∈ l ↔ P (f i)

namespace Tracks

/-- An object keeps the property, or is still without it. -/
theorem kept (h : Tracks P f l) (hsame : P (f i) ↔ P a) : Tracks P (Function.update f i a) l := by
  refine ⟨h.nodup, fun j => ?_⟩
  by_cases heq : j = i
  · rw [heq, Function.update_self, ← hsame]
    exact h.mem i
  · rw [Function.update_of_ne heq]
    exact h.mem j

/-- An object gets the property. -/
theorem added (h : Tracks P f l) (hbefore : ¬P (f i)) (hafter : P a) :
    Tracks P (Function.update f i a) (l ++ [i]) := by
  have hnew : i ∉ l := fun hmem => hbefore ((h.mem i).mp hmem)
  refine ⟨?_, fun j => ?_⟩
  · rw [List.nodup_append]
    refine ⟨h.nodup, List.nodup_singleton _, fun j hj k hk heq => ?_⟩
    rw [List.mem_singleton.mp hk] at heq
    exact hnew (heq ▸ hj)
  · rw [List.mem_append, List.mem_singleton]
    by_cases heq : j = i
    · rw [heq, Function.update_self]
      exact ⟨fun _ => hafter, fun _ => Or.inr rfl⟩
    · rw [Function.update_of_ne heq, h.mem j]
      exact ⟨fun hmem => hmem.resolve_right heq, Or.inl⟩

/-- An object loses the property. -/
theorem removed (h : Tracks P f l) (hafter : ¬P a) :
    Tracks P (Function.update f i a) (l.erase i) := by
  refine ⟨h.nodup.erase i, fun j => ?_⟩
  rw [h.nodup.mem_erase_iff]
  by_cases heq : j = i
  · rw [heq, Function.update_self]
    exact ⟨fun hmem => absurd rfl hmem.1, fun ha => absurd ha hafter⟩
  · rw [Function.update_of_ne heq, h.mem j]
    exact ⟨fun hmem => hmem.2, fun hj => ⟨heq, hj⟩⟩

end Tracks

/-! ## Totals -/

/-- The weight of the objects of a list. -/
def total (weight : α → ℕ) (f : ℕ → α) (l : List ℕ) : ℕ :=
  l.foldr (fun i n => weight (f i) + n) 0

/-- INTERNAL: objects that are not in the list do not count. -/
theorem total_update_of_notMem {weight : α → ℕ} (h : i ∉ l) :
    total weight (Function.update f i a) l = total weight f l := by
  refine List.foldr_ext _ _ 0 fun j hj n => ?_
  have hne : j ≠ i := fun heq => h (heq ▸ hj)
  rw [Function.update_of_ne hne]

/-- The total changes with the weight of the object that moves. -/
theorem total_update {weight : α → ℕ} (hnodup : l.Nodup) (h : i ∈ l) :
    total weight (Function.update f i a) l + weight (f i) = total weight f l + weight a := by
  induction l with
  | nil => cases h
  | cons j l ih =>
    obtain ⟨hj, hl⟩ := List.nodup_cons.mp hnodup
    have hcons : ∀ g : ℕ → α, total weight g (j :: l) = weight (g j) + total weight g l :=
      fun g => rfl
    rw [hcons, hcons]
    obtain rfl | hmem := List.mem_cons.mp h
    · rw [total_update_of_notMem hj, Function.update_self]
      omega
    · have hne : j ≠ i := fun heq => hj (heq ▸ hmem)
      have hrest := ih hl hmem
      rw [Function.update_of_ne hne]
      omega

end Rkvs.Library

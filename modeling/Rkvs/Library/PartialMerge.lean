import Mathlib.Data.List.Perm.Basic
import Mathlib.Data.List.Nodup
import Mathlib.Data.Finset.Defs
import Rkvs.Library.Newest

/-!
# Merging in parts

A merge has taken some elements, each of them for all of its key that are no newer, and the others
are left. What it takes of the others comes behind what it has taken before, so the whole is in the
order of the keys only if every part takes the lowest ones.
-/

set_option autoImplicit false

namespace Rkvs.Library

variable {α κ : Type}

/-- Every element of `xs` is left, or one of its key that is at least as new is done. -/
structure PartlyMerged (key : α → κ) (rank : α → ℕ) (xs done left : List α) : Prop where
  done_mem : ∀ x ∈ done, x ∈ xs
  left_mem : ∀ y ∈ left, y ∈ xs
  covers : ∀ y ∈ xs, y ∈ left ∨ ∃ x ∈ done, key x = key y ∧ rank y ≤ rank x

section
variable {key : α → κ} {rank : α → ℕ} {xs done left merged left' : List α}

/-- Nothing is merged at first. -/
theorem PartlyMerged.start : PartlyMerged key rank xs [] xs :=
  ⟨fun _ hx => absurd hx List.not_mem_nil, fun _ hy => hy, fun _ hy => Or.inl hy⟩

/-- What is left is merged further. -/
theorem PartlyMerged.append (h : PartlyMerged key rank xs done left)
    (h' : PartlyMerged key rank left merged left') :
    PartlyMerged key rank xs (done ++ merged) left' where
  done_mem x hx := by
    obtain hx | hx := List.mem_append.mp hx
    · exact h.done_mem x hx
    · exact h.left_mem x (h'.done_mem x hx)
  left_mem y hy := h.left_mem y (h'.left_mem y hy)
  covers y hy := by
    obtain hleft | ⟨x, hx, hkey⟩ := h.covers y hy
    · refine (h'.covers y hleft).imp_right ?_
      rintro ⟨x, hx, hkey⟩
      exact ⟨x, List.mem_append_right _ hx, hkey⟩
    · exact Or.inr ⟨x, List.mem_append_left _ hx, hkey⟩

variable [LinearOrder κ]

/-- Two parts are in the order of the keys together if and only if each of them is, and the first
one is below all that it has left to the second. -/
theorem PartlyMerged.pairwise_append_iff (h : PartlyMerged key rank left merged [])
    (done : List α) :
    ((done ++ merged).Pairwise fun x y => key x < key y) ↔
      (done.Pairwise fun x y => key x < key y) ∧ (merged.Pairwise fun x y => key x < key y) ∧
        ∀ x ∈ done, ∀ y ∈ left, key x < key y := by
  rw [List.pairwise_append]
  refine and_congr_right fun _ => and_congr_right fun _ => ⟨fun hlt x hx y hy => ?_,
    fun hlt x hx y hy => hlt x hx y (h.done_mem y hy)⟩
  obtain hnone | ⟨z, hz, hkey, -⟩ := h.covers y hy
  · exact absurd hnone List.not_mem_nil
  · exact hkey ▸ hlt x hx z hz

/-- With nothing left and every key once, the newest element of every key is found. -/
theorem PartlyMerged.isNewest (h : PartlyMerged key rank xs done [])
    (hasc : done.Pairwise fun x y => key x < key y) (k : κ) :
    IsNewest key rank xs k (done.find? fun x => key x = k) := by
  cases hfind : done.find? fun x => key x = k with
  | some x =>
    have hmem := List.mem_of_find?_eq_some hfind
    have hkey : key x = k := by simpa using List.find?_some hfind
    refine ⟨h.done_mem x hmem, hkey, fun y hy hyk => ?_⟩
    obtain hnone | ⟨z, hz, hzkey, hrank⟩ := h.covers y hy
    · exact absurd hnone List.not_mem_nil
    · have hnodup : (done.map key).Nodup := List.pairwise_map.mpr (hasc.imp ne_of_lt)
      rwa [← List.inj_on_of_nodup_map hnodup hz hmem (hzkey.trans (hyk.trans hkey.symm))]
  | none =>
    intro y hy hkey
    obtain hnone | ⟨x, hx, hxkey, -⟩ := h.covers y hy
    · exact absurd hnone List.not_mem_nil
    · exact absurd (hxkey.trans hkey) (by simpa using List.find?_eq_none.mp hfind x hx)

/-- With nothing left and no key twice everything is done. -/
theorem PartlyMerged.perm (h : PartlyMerged key rank xs done [])
    (hasc : done.Pairwise fun x y => key x < key y) (hnodup : (xs.map key).Nodup) :
    done.Perm xs := by
  have hdone : done.Nodup := by
    refine List.Pairwise.imp ?_ hasc
    rintro x y hlt rfl
    exact lt_irrefl _ hlt
  apply (List.perm_ext_iff_of_nodup hdone hnodup.of_map).mpr
  intro x
  refine ⟨h.done_mem x, fun hx => ?_⟩
  obtain hnone | ⟨y, hy, hkey, -⟩ := h.covers x hx
  · exact absurd hnone List.not_mem_nil
  · rwa [← List.inj_on_of_nodup_map hnodup (h.done_mem y hy) hx hkey]

end

end Rkvs.Library

import Mathlib.Data.List.Sort
import Mathlib.Order.Basic

/-!
# What is found first

Searches through lists that are in the order of a rank: what is found first is what has the least
rank of all that could be found.
-/

set_option autoImplicit false

namespace Rkvs.Library

variable {α β γ : Type}

/-- The first element without a property. -/
theorem exists_first_not {p : α → Prop} {l : List α} (h : ¬∀ a ∈ l, p a) :
    ∃ front a rear, l = front ++ a :: rear ∧ (∀ b ∈ front, p b) ∧ ¬p a := by
  induction l with
  | nil => exact absurd (fun a ha => absurd ha List.not_mem_nil) h
  | cons a l ih =>
    by_cases ha : p a
    · have hrest : ¬∀ b ∈ l, p b := fun hall => h (List.forall_mem_cons.mpr ⟨ha, hall⟩)
      obtain ⟨front, b, rear, rfl, hfront, hb⟩ := ih hrest
      exact ⟨a :: front, b, rear, rfl, List.forall_mem_cons.mpr ⟨ha, hfront⟩, hb⟩
    · exact ⟨[], a, l, rfl, fun b hb => absurd hb List.not_mem_nil, ha⟩

section
variable {rank : α → ℕ} {xs : List α}

/-- The first result is that of the least rank. -/
theorem findSome?_eq_some_iff_of_ascending (h : xs.Pairwise fun x y => rank x < rank y)
    {f : α → Option β} {b : β} : xs.findSome? f = some b ↔
      ∃ x ∈ xs, f x = some b ∧ ∀ y ∈ xs, rank y < rank x → f y = none := by
  induction xs with
  | nil => simp
  | cons x xs ih =>
    obtain ⟨hhead, htail⟩ := List.pairwise_cons.mp h
    rw [List.findSome?_cons]
    cases hx : f x with
    | some a =>
      constructor
      · rintro ⟨⟩
        refine ⟨x, List.mem_cons_self .., hx, fun y hy hlt => ?_⟩
        obtain rfl | hy := List.mem_cons.mp hy
        · exact absurd hlt (lt_irrefl _)
        · exact absurd hlt (hhead y hy).not_gt
      · rintro ⟨y, hy, hfound, hbefore⟩
        obtain rfl | hy := List.mem_cons.mp hy
        · exact hx.symm.trans hfound
        · cases hx.symm.trans (hbefore x (List.mem_cons_self ..) (hhead y hy))
    | none =>
      refine (ih htail).trans ⟨?_, ?_⟩
      · rintro ⟨y, hy, hfound, hbefore⟩
        refine ⟨y, List.mem_cons_of_mem _ hy, hfound, fun z hz hlt => ?_⟩
        obtain rfl | hz := List.mem_cons.mp hz
        · exact hx
        · exact hbefore z hz hlt
      · rintro ⟨y, hy, hfound, hbefore⟩
        obtain rfl | hy := List.mem_cons.mp hy
        · cases hx.symm.trans hfound
        · exact ⟨y, hy, hfound, fun z hz => hbefore z (List.mem_cons_of_mem _ hz)⟩

/-- Two lists whose elements of one rank give the same result, if any, give the same first
result. -/
theorem findSome?_congr_of_ascending {rank' : γ → ℕ} {ys : List γ}
    (hxs : xs.Pairwise fun x y => rank x < rank y)
    (hys : ys.Pairwise fun x y => rank' x < rank' y) {f : α → Option β} {g : γ → Option β}
    (hsound : ∀ x ∈ xs, f x ≠ none → ∃ y ∈ ys, rank' y = rank x ∧ g y = f x)
    (hcomplete : ∀ y ∈ ys, g y ≠ none → ∃ x ∈ xs, rank x = rank' y ∧ f x = g y) :
    xs.findSome? f = ys.findSome? g := by
  refine Option.ext fun b => ?_
  rw [findSome?_eq_some_iff_of_ascending hxs, findSome?_eq_some_iff_of_ascending hys]
  constructor
  · rintro ⟨x, hx, hfound, hbefore⟩
    obtain ⟨y, hy, hrank, heq⟩ := hsound x hx fun hnone => by cases hnone.symm.trans hfound
    refine ⟨y, hy, heq.trans hfound, fun z hz hlt => ?_⟩
    by_contra hsome
    obtain ⟨w, hw, hrank', heq'⟩ := hcomplete z hz hsome
    exact hsome (heq' ▸ hbefore w hw (hrank' ▸ hrank ▸ hlt))
  · rintro ⟨y, hy, hfound, hbefore⟩
    obtain ⟨x, hx, hrank, heq⟩ := hcomplete y hy fun hnone => by cases hnone.symm.trans hfound
    refine ⟨x, hx, heq.trans hfound, fun z hz hlt => ?_⟩
    by_contra hsome
    obtain ⟨w, hw, hrank', heq'⟩ := hsound z hz hsome
    exact hsome (heq' ▸ hbefore w hw (hrank' ▸ hrank ▸ hlt))

/-- The first element that is looked for is the one of the least rank. -/
theorem find?_eq_some_of_least (h : xs.Pairwise fun x y => rank x ≤ rank y) {p : α → Bool} {x : α}
    (hx : x ∈ xs) (hpx : p x) (hleast : ∀ y ∈ xs, p y → y = x ∨ rank x < rank y) :
    xs.find? p = some x := by
  induction xs with
  | nil => cases hx
  | cons y xs ih =>
    obtain ⟨hhead, htail⟩ := List.pairwise_cons.mp h
    by_cases hpy : p y
    · rw [List.find?_cons_of_pos hpy]
      obtain rfl | hlt := hleast y (List.mem_cons_self ..) hpy
      · rfl
      · obtain rfl | hmem := List.mem_cons.mp hx
        · rfl
        · exact absurd hlt (hhead x hmem).not_gt
    · rw [List.find?_cons_of_neg hpy]
      obtain rfl | hmem := List.mem_cons.mp hx
      · exact absurd hpx hpy
      · exact ih htail hmem fun z hz => hleast z (List.mem_cons_of_mem _ hz)

/-- A search in which everything gives the same. -/
theorem findSome?_of_forall_eq {f : α → Option β} {b : Option β} (hne : xs ≠ [])
    (h : ∀ x ∈ xs, f x = b) : xs.findSome? f = b := by
  obtain ⟨x, rest, rfl⟩ := List.exists_cons_of_ne_nil hne
  rw [List.findSome?_cons, h x (List.mem_cons_self ..)]
  cases b with
  | some b => rfl
  | none => exact List.findSome?_eq_none_iff.mpr fun y hy => h y (List.mem_cons_of_mem _ hy)

/-- A list in the order of a rank is what comes before, at and after a rank. -/
theorem eq_filter_append_of_ascending (h : xs.Pairwise fun x y => rank x < rank y) (n : ℕ) :
    xs = xs.filter (rank · < n) ++ (xs.filter (rank · = n) ++ xs.filter (n < rank ·)) := by
  induction xs with
  | nil => rfl
  | cons x xs ih =>
    obtain ⟨hhead, htail⟩ := List.pairwise_cons.mp h
    have hrest := ih htail
    obtain hlt | heq | hgt := lt_trichotomy (rank x) n
    · rw [List.filter_cons_of_pos (by simpa using hlt),
        List.filter_cons_of_neg (by simpa using hlt.ne),
        List.filter_cons_of_neg (by simpa using hlt.le), List.cons_append, ← hrest]
    · have hbefore : xs.filter (rank · < n) = [] :=
        List.filter_eq_nil_iff.mpr fun y hy => by simpa using (heq ▸ hhead y hy).le
      rw [hbefore, List.nil_append] at hrest
      rw [List.filter_cons_of_neg (by simp [heq]), hbefore,
        List.filter_cons_of_pos (by simpa using heq), List.filter_cons_of_neg (by simp [heq]),
        List.nil_append, List.cons_append, ← hrest]
    · have hbefore : xs.filter (rank · < n) = [] :=
        List.filter_eq_nil_iff.mpr fun y hy => by simpa using (hgt.trans (hhead y hy)).le
      have hat : xs.filter (rank · = n) = [] :=
        List.filter_eq_nil_iff.mpr fun y hy => by simpa using (hgt.trans (hhead y hy)).ne'
      rw [hbefore, hat, List.nil_append, List.nil_append] at hrest
      rw [List.filter_cons_of_neg (by simpa using hgt.le), hbefore,
        List.filter_cons_of_neg (by simpa using hgt.ne'), hat,
        List.filter_cons_of_pos (by simpa using hgt), List.nil_append, List.nil_append, ← hrest]

end

end Rkvs.Library

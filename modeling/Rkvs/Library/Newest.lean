import Mathlib.Data.List.Sort
import Mathlib.Order.Basic

/-!
# The newest of several versions

Elements have a key and a rank. Of the elements with one key the newest has the highest rank;
`newestUnion` keeps one newest element for every key, in the order of the keys.
-/

set_option autoImplicit false

namespace Rkvs.Library

variable {α κ : Type}

/-- `r` is a newest element with the key, or there is none with it. -/
def IsNewest (key : α → κ) (rank : α → ℕ) (xs : List α) (k : κ) : Option α → Prop
  | none => ∀ x ∈ xs, key x ≠ k
  | some x => x ∈ xs ∧ key x = k ∧ ∀ y ∈ xs, key y = k → rank y ≤ rank x

/-- Every other element with the key of `x` is older. -/
def Wins (key : α → κ) (rank : α → ℕ) (xs : List α) (x : α) : Prop :=
  x ∈ xs ∧ ∀ y ∈ xs, key y = key x → y ≠ x → rank y < rank x

section
variable {key : α → κ} {rank : α → ℕ} {xs ys : List α} {k : κ}

/-- INTERNAL: the newest element depends on those of its key. -/
theorem IsNewest.congr (h : ∀ x, key x = k → (x ∈ xs ↔ x ∈ ys)) {r : Option α}
    (hr : IsNewest key rank xs k r) : IsNewest key rank ys k r := by
  cases r with
  | none => exact fun x hx hkey => hr x ((h x hkey).mpr hx) hkey
  | some x =>
    obtain ⟨hmem, hkey, hmax⟩ := hr
    exact ⟨(h x hkey).mp hmem, hkey, fun y hy hyk => hmax y ((h y hyk).mpr hy) hyk⟩

/-- Of two candidates the one that is not older, the second in doubt. -/
def newerOf (rank : α → ℕ) : Option α → Option α → Option α
  | r, none => r
  | none, some y => some y
  | some x, some y => if rank x > rank y then some x else some y

/-- The newest of two lists is one of the newest of each. -/
theorem IsNewest.append {r r' : Option α} (h : IsNewest key rank xs k r)
    (h' : IsNewest key rank ys k r') : IsNewest key rank (xs ++ ys) k (newerOf rank r r') := by
  cases r with
  | none =>
    have hsame : newerOf rank none r' = r' := by cases r' <;> rfl
    rw [hsame]
    refine h'.congr fun x hx => ?_
    rw [List.mem_append]
    exact ⟨Or.inr, fun hmem => hmem.resolve_left fun hxs => h x hxs hx⟩
  | some x =>
    obtain ⟨hmem, hkey, hmax⟩ := h
    cases r' with
    | none =>
      refine ⟨List.mem_append_left _ hmem, hkey, fun y hy hyk => ?_⟩
      obtain hy | hy := List.mem_append.mp hy
      · exact hmax y hy hyk
      · exact absurd hyk (h' y hy)
    | some y =>
      obtain ⟨hmem', hkey', hmax'⟩ := h'
      rw [newerOf]
      by_cases hgt : rank x > rank y
      · rw [if_pos hgt]
        refine ⟨List.mem_append_left _ hmem, hkey, fun z hz hzk => ?_⟩
        obtain hz | hz := List.mem_append.mp hz
        · exact hmax z hz hzk
        · exact (hmax' z hz hzk).trans hgt.le
      · rw [if_neg hgt]
        refine ⟨List.mem_append_right _ hmem', hkey', fun z hz hzk => ?_⟩
        obtain hz | hz := List.mem_append.mp hz
        · exact (hmax z hz hzk).trans (Nat.le_of_not_lt hgt)
        · exact hmax' z hz hzk

/-- Every version in `xs` is newer than every version in `ys`. -/
def NewerThan (key : α → κ) (rank : α → ℕ) (xs ys : List α) : Prop :=
  ∀ x ∈ xs, ∀ y ∈ ys, key x = key y → rank y < rank x

/-- Where the first list is newer, what it has is the newest of both. -/
theorem IsNewest.append_of_newer (hnewer : NewerThan key rank xs ys) {r r' : Option α}
    (h : IsNewest key rank xs k r) (h' : IsNewest key rank ys k r') :
    IsNewest key rank (xs ++ ys) k (r.or r') := by
  cases r with
  | none =>
    refine h'.congr fun x hx => ?_
    rw [List.mem_append]
    exact ⟨Or.inr, fun hmem => hmem.resolve_left fun hxs => h x hxs hx⟩
  | some x =>
    obtain ⟨hmem, hkey, hmax⟩ := h
    refine ⟨List.mem_append_left _ hmem, hkey, fun y hy hyk => ?_⟩
    obtain hy | hy := List.mem_append.mp hy
    · exact hmax y hy hyk
    · exact (hnewer x hmem y hy (hkey.trans hyk.symm)).le

/-- The first of several lists to have the key has the newest if every list is newer than those
behind it. -/
theorem isNewest_findSome? {β : Type} {content : β → List α} {found : β → Option α} {sources : List β}
    (hnewer : sources.Pairwise fun s t => NewerThan key rank (content s) (content t))
    (hfound : ∀ s ∈ sources, IsNewest key rank (content s) k (found s)) :
    IsNewest key rank (sources.flatMap content) k (sources.findSome? found) := by
  induction sources with
  | nil => exact fun x hx => absurd hx List.not_mem_nil
  | cons s sources ih =>
    obtain ⟨hhead, htail⟩ := List.pairwise_cons.mp hnewer
    have hrest := ih htail fun t ht => hfound t (List.mem_cons_of_mem _ ht)
    have hall : NewerThan key rank (content s) (sources.flatMap content) := by
      intro x hx y hy
      obtain ⟨t, ht, hyt⟩ := List.mem_flatMap.mp hy
      exact hhead t ht x hx y hyt
    have hboth := (hfound s (List.mem_cons_self ..)).append_of_newer hall hrest
    rw [List.flatMap_cons, List.findSome?_cons]
    cases hs : found s with
    | none => rwa [hs, Option.none_or] at hboth
    | some x => rwa [hs, Option.some_or] at hboth

/-- A list whose newest elements are as new as those of another one, and among them, has its newest. -/
theorem IsNewest.of_represented (hsub : ∀ y ∈ ys, y ∈ xs)
    (hcovered : ∀ x ∈ xs, key x = k → ∃ y ∈ ys, key y = k ∧ rank x ≤ rank y) {r : Option α}
    (h : IsNewest key rank ys k r) : IsNewest key rank xs k r := by
  cases r with
  | none =>
    intro x hx hkey
    obtain ⟨y, hy, hyk, -⟩ := hcovered x hx hkey
    exact h y hy hyk
  | some y =>
    obtain ⟨hmem, hkey, hmax⟩ := h
    refine ⟨hsub y hmem, hkey, fun x hx hxk => ?_⟩
    obtain ⟨z, hz, hzk, hle⟩ := hcovered x hx hxk
    exact hle.trans (hmax z hz hzk)

/-- Where no two elements with the key have one rank, there is only one answer. -/
theorem IsNewest.unique
    (hrank : ∀ x ∈ xs, ∀ y ∈ xs, key x = k → key y = k → rank x = rank y → x = y)
    {r r' : Option α} (h : IsNewest key rank xs k r) (h' : IsNewest key rank xs k r') : r = r' := by
  cases r with
  | none =>
    cases r' with
    | none => rfl
    | some y => exact absurd h'.2.1 (h y h'.1)
  | some x =>
    cases r' with
    | none => exact absurd h.2.1 (h' x h.1)
    | some y =>
      obtain ⟨hx, hxk, hxmax⟩ := h
      obtain ⟨hy, hyk, hymax⟩ := h'
      have hsame : rank x = rank y := le_antisymm (hymax x hx hxk) (hxmax y hy hyk)
      rw [hrank x hx y hy hxk hyk hsame]

/-- An element that wins is the only newest one. -/
theorem Wins.eq {x : α} (h : Wins key rank xs x) (hkey : key x = k) {r : Option α}
    (hr : IsNewest key rank xs k r) : r = some x := by
  cases r with
  | none => exact absurd hkey (hr x h.1)
  | some y =>
    obtain ⟨hmem, hyk, hmax⟩ := hr
    by_contra hne
    have hlt := h.2 y hmem (hyk.trans hkey.symm) fun heq => hne (congrArg some heq)
    exact absurd (hmax x h.1 hkey) (Nat.not_le.mpr hlt)

end

/-- Where no key occurs twice, what is found is the newest. -/
theorem isNewest_find [DecidableEq κ] {key : α → κ} {rank : α → ℕ} {xs : List α}
    (h : (xs.map key).Nodup) (k : κ) :
    IsNewest key rank xs k (xs.find? fun x => key x = k) := by
  cases hfind : xs.find? fun x => key x = k with
  | none =>
    intro x hx
    simpa using List.find?_eq_none.mp hfind x hx
  | some x =>
    have hmem := List.mem_of_find?_eq_some hfind
    have hkey : key x = k := by simpa using List.find?_some hfind
    refine ⟨hmem, hkey, fun y hy hyk => ?_⟩
    rw [List.inj_on_of_nodup_map h hy hmem (hyk.trans hkey.symm)]

/-- Where later elements are newer, those from a rank on are behind the others. -/
theorem filter_append_filter_of_newer {rank : α → ℕ} {xs : List α}
    (h : xs.Pairwise fun x y => rank x < rank y) (n : ℕ) :
    xs.filter (fun x => rank x < n) ++ xs.filter (fun x => n ≤ rank x) = xs := by
  induction xs with
  | nil => rfl
  | cons x xs ih =>
    obtain ⟨hhead, htail⟩ := List.pairwise_cons.mp h
    by_cases hlt : rank x < n
    · rw [List.filter_cons_of_pos (by simpa using hlt),
        List.filter_cons_of_neg (by simpa using hlt), List.cons_append, ih htail]
    · have hnone : xs.filter (fun y => rank y < n) = [] := by
        apply List.filter_eq_nil_iff.mpr
        intro y hy
        have hgt := hhead y hy
        simp only [decide_eq_true_eq]
        omega
      have hall : xs.filter (fun y => n ≤ rank y) = xs := by
        apply List.filter_eq_self.mpr
        intro y hy
        have hgt := hhead y hy
        simp only [decide_eq_true_eq]
        omega
      rw [List.filter_cons_of_neg (by simpa using hlt),
        List.filter_cons_of_pos (by simpa using hlt), hnone, hall, List.nil_append]

/-- Where later elements are newer, the last element with a key is its newest. -/
theorem isNewest_last [DecidableEq κ] {key : α → κ} {rank : α → ℕ} {xs : List α}
    (h : xs.Pairwise fun x y => rank x < rank y) (k : κ) :
    IsNewest key rank xs k (xs.reverse.find? fun x => key x = k) := by
  cases hfind : xs.reverse.find? fun x => key x = k with
  | none =>
    intro x hx
    simpa using List.find?_eq_none.mp hfind x (List.mem_reverse.mpr hx)
  | some x =>
    obtain ⟨hkey, later, earlier, hsplit, hlater⟩ := List.find?_eq_some_iff_append.mp hfind
    have hkey : key x = k := by simpa using hkey
    have hmem : x ∈ xs := List.mem_reverse.mp (List.mem_of_find?_eq_some hfind)
    refine ⟨hmem, hkey, fun y hy hyk => ?_⟩
    have hdesc : (later ++ x :: earlier).Pairwise fun x y => rank y < rank x := by
      rw [← hsplit]
      exact List.pairwise_reverse.mpr h
    rw [← List.mem_reverse, hsplit] at hy
    obtain hy | hy := List.mem_append.mp hy
    · have hnot := hlater y hy
      rw [hyk] at hnot
      simp at hnot
    · obtain rfl | hy := List.mem_cons.mp hy
      · exact le_refl _
      · have hbehind := (List.pairwise_append.mp hdesc).2.1
        exact ((List.pairwise_cons.mp hbehind).1 y hy).le

section
variable [LinearOrder κ] (key : α → κ) (rank : α → ℕ)

/-- Put an element into a list that is sorted by key, unless one as new is there. -/
def insertNewest (x : α) : List α → List α
  | [] => [x]
  | y :: ys =>
    if key x < key y then x :: y :: ys
    else if key x = key y then (if rank y < rank x then x else y) :: ys
    else y :: insertNewest x ys

/-- One newest element for every key, in the order of the keys. -/
def newestUnion (xs : List α) : List α := xs.foldr (insertNewest key rank) []

variable {key rank}

/-- INTERNAL: inserting adds one element at most. -/
theorem mem_of_mem_insertNewest {x z : α} {ys : List α} (h : z ∈ insertNewest key rank x ys) :
    z = x ∨ z ∈ ys := by
  induction ys with
  | nil => exact Or.inl (List.mem_singleton.mp h)
  | cons y ys ih =>
    unfold insertNewest at h
    split at h
    · exact List.mem_cons.mp h
    · split at h
      · obtain rfl | h := List.mem_cons.mp h
        · split
          · exact Or.inl rfl
          · exact Or.inr (List.mem_cons_self ..)
        · exact Or.inr (List.mem_cons_of_mem _ h)
      · obtain rfl | h := List.mem_cons.mp h
        · exact Or.inr (List.mem_cons_self ..)
        · exact (ih h).imp_right (List.mem_cons_of_mem _)

/-- INTERNAL: the union has no other elements. -/
theorem mem_of_mem_newestUnion {z : α} {xs : List α} (h : z ∈ newestUnion key rank xs) :
    z ∈ xs := by
  induction xs with
  | nil => exact h
  | cons x xs ih =>
    obtain rfl | h := mem_of_mem_insertNewest h
    · exact List.mem_cons_self ..
    · exact List.mem_cons_of_mem _ (ih h)

/-- INTERNAL: inserting keeps the order of the keys. -/
theorem pairwise_insertNewest (x : α) {ys : List α} (h : ys.Pairwise fun y z => key y < key z) :
    (insertNewest key rank x ys).Pairwise fun y z => key y < key z := by
  induction ys with
  | nil => exact List.pairwise_singleton ..
  | cons y ys ih =>
    obtain ⟨hhead, htail⟩ := List.pairwise_cons.mp h
    unfold insertNewest
    split
    · rename_i hlt
      refine List.pairwise_cons.mpr ⟨fun z hz => ?_, h⟩
      obtain rfl | hz := List.mem_cons.mp hz
      · exact hlt
      · exact hlt.trans (hhead z hz)
    · rename_i hle
      split
      · rename_i heq
        refine List.pairwise_cons.mpr ⟨fun z hz => ?_, htail⟩
        split
        · exact heq ▸ hhead z hz
        · exact hhead z hz
      · rename_i hne
        refine List.pairwise_cons.mpr ⟨fun z hz => ?_, ih htail⟩
        obtain rfl | hz := mem_of_mem_insertNewest hz
        · exact lt_of_le_of_ne (le_of_not_gt hle) (Ne.symm hne)
        · exact hhead z hz

/-- INTERNAL: the keys of a union ascend. -/
theorem pairwise_newestUnion (xs : List α) :
    (newestUnion key rank xs).Pairwise fun x y => key x < key y := by
  induction xs with
  | nil => exact List.Pairwise.nil
  | cons x xs ih => exact pairwise_insertNewest x ih

/-- INTERNAL: the other keys have the elements they had. -/
theorem find_insertNewest_of_ne {x : α} {k : κ} (hne : key x ≠ k) (ys : List α) :
    (insertNewest key rank x ys).find? (fun y => key y = k) = ys.find? fun y => key y = k := by
  induction ys with
  | nil => simp [insertNewest, hne]
  | cons y ys ih =>
    unfold insertNewest
    split
    · rw [List.find?_cons_of_neg (by simpa using hne)]
    · split
      · rename_i heq
        have hy : key y ≠ k := heq ▸ hne
        rw [List.find?_cons_of_neg (by split <;> simpa), List.find?_cons_of_neg (by simpa using hy)]
      · rw [List.find?_cons, List.find?_cons, ih]

/-- INTERNAL: the key of the new element has the newer of two. -/
theorem find_insertNewest_self (x : α) {ys : List α} (h : ys.Pairwise fun y z => key y < key z) :
    (insertNewest key rank x ys).find? (fun y => key y = key x) =
      match ys.find? fun y => key y = key x with
      | none => some x
      | some y => if rank y < rank x then some x else some y := by
  induction ys with
  | nil => simp [insertNewest]
  | cons y ys ih =>
    obtain ⟨hhead, htail⟩ := List.pairwise_cons.mp h
    unfold insertNewest
    split
    · rename_i hlt
      have hnone : (y :: ys).find? (fun y => key y = key x) = none := by
        apply List.find?_eq_none.mpr
        intro z hz
        simp only [decide_eq_true_eq]
        obtain rfl | hz := List.mem_cons.mp hz
        · exact hlt.ne'
        · exact (hlt.trans (hhead z hz)).ne'
      rw [hnone, List.find?_cons_of_pos (by simp)]
    · split
      · rename_i heq
        rw [List.find?_cons_of_pos (by split <;> simp [heq]),
          List.find?_cons_of_pos (by simp [heq])]
        dsimp only
        split <;> rfl
      · rename_i hne
        rw [List.find?_cons_of_neg (by simpa using Ne.symm hne), ih htail,
          List.find?_cons_of_neg (by simpa using Ne.symm hne)]

/-- The union has the newest element of each key. -/
theorem isNewest_newestUnion (xs : List α) (k : κ) :
    IsNewest key rank xs k ((newestUnion key rank xs).find? fun x => key x = k) := by
  induction xs with
  | nil => exact fun x hx => absurd hx List.not_mem_nil
  | cons x xs ih =>
    show IsNewest key rank (x :: xs) k
      ((insertNewest key rank x (newestUnion key rank xs)).find? fun x => key x = k)
    by_cases hkey : key x = k
    · subst hkey
      rw [find_insertNewest_self x (pairwise_newestUnion xs)]
      cases hfind : (newestUnion key rank xs).find? fun y => key y = key x with
      | none =>
        rw [hfind] at ih
        refine ⟨List.mem_cons_self .., rfl, fun y hy hyk => ?_⟩
        obtain rfl | hy := List.mem_cons.mp hy
        · exact le_refl _
        · exact absurd hyk (ih y hy)
      | some y =>
        rw [hfind] at ih
        obtain ⟨hmem, hyk, hmax⟩ := ih
        dsimp only
        split
        · rename_i hlt
          refine ⟨List.mem_cons_self .., rfl, fun z hz hzk => ?_⟩
          obtain rfl | hz := List.mem_cons.mp hz
          · exact le_refl _
          · exact (hmax z hz hzk).trans hlt.le
        · rename_i hle
          refine ⟨List.mem_cons_of_mem _ hmem, hyk, fun z hz hzk => ?_⟩
          obtain rfl | hz := List.mem_cons.mp hz
          · exact Nat.le_of_not_lt hle
          · exact hmax z hz hzk
    · rw [find_insertNewest_of_ne hkey]
      refine ih.congr fun y hyk => ?_
      rw [List.mem_cons]
      exact ⟨Or.inr, fun h => h.resolve_left fun heq => hkey (heq ▸ hyk)⟩

/-- The last element of a list is kept if no other one with its key is newer. -/
theorem find_newestUnion_last (xs : List α) {z : α}
    (h : ∀ x ∈ xs, key x = key z → rank x ≤ rank z) :
    (newestUnion key rank (xs ++ [z])).find? (fun y => key y = key z) = some z := by
  induction xs with
  | nil => exact List.find?_cons_of_pos (by simp)
  | cons x xs ih =>
    have hrest := ih fun y hy => h y (List.mem_cons_of_mem _ hy)
    show (insertNewest key rank x (newestUnion key rank (xs ++ [z]))).find? _ = _
    by_cases hkey : key x = key z
    · rw [← hkey, find_insertNewest_self x (pairwise_newestUnion _), hkey, hrest]
      exact if_neg (Nat.not_lt.mpr (h x (List.mem_cons_self ..) hkey))
    · rw [find_insertNewest_of_ne hkey, hrest]

/-- One result with something to fall back on is right for every choice of the newest element
exactly when it wins, or is what there is to fall back on for a key without elements. -/
theorem forall_isNewest_or (xs : List α) {x : α} {k : κ} (hkey : key x = k) (rest : Option α) :
    (∀ r, IsNewest key rank xs k r → r.or rest = some x) ↔
      Wins key rank xs x ∨ (∀ y ∈ xs, key y ≠ k) ∧ rest = some x := by
  constructor
  · intro h
    obtain ⟨r, hr⟩ : ∃ r, IsNewest key rank xs k r := ⟨_, isNewest_newestUnion xs k⟩
    cases r with
    | none => exact Or.inr ⟨hr, h none hr⟩
    | some z =>
      obtain rfl : z = x := Option.some.inj (h (some z) hr)
      obtain ⟨hmem, -, hmax⟩ := hr
      refine Or.inl ⟨hmem, fun y hy hyk hne => ?_⟩
      have hle := hmax y hy (hyk.trans hkey)
      refine lt_of_le_of_ne hle fun heq => hne ?_
      exact Option.some.inj (h (some y) ⟨hy, hyk.trans hkey,
        fun w hw hwk => heq ▸ hmax w hw hwk⟩)
  · rintro (hwins | ⟨hnone, rfl⟩) r hr
    · rw [hwins.eq hkey hr]
      rfl
    · cases r with
      | none => rfl
      | some z => exact absurd hr.2.1 (hnone z hr.1)

end

end Rkvs.Library

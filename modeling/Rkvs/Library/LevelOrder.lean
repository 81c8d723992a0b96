import Rkvs.Library.Newest
import Mathlib.Data.Set.Basic

/-!
# The order of levels

Sources on levels hold elements that have a key and a rank. A search that goes from level to level
and stops at the first that has a key finds the newest element if every source is newer than all
those of higher levels. Sources whose newest elements are moved to a level stay in order exactly if
what stays below that level is newer and what stays above it is older.
-/

set_option autoImplicit false

namespace Rkvs.Library

variable {σ α κ : Type} (level : σ → ℕ) (content : σ → List α) (key : α → κ) (rank : α → ℕ)

/-- Every source is newer than those of higher levels. -/
def OrderedLevels (sources : Set σ) : Prop :=
  ∀ s ∈ sources, ∀ t ∈ sources, level s < level t → NewerThan key rank (content s) (content t)

/-- The sources `moved` are replaced by `written`, which have the newest element of every key on
level `m`. -/
structure Replaces (before after : Set σ) (m : ℕ) (moved written : Set σ) : Prop where
  left : ∀ s, s ∈ after ↔ s ∈ written ∨ s ∈ before ∧ s ∉ moved
  placed : ∀ s ∈ written, level s = m
  taken : ∀ s ∈ written, ∀ x ∈ content s, ∃ t ∈ moved, x ∈ content t
  newest : ∀ t ∈ moved, ∀ x ∈ content t, ∃ s ∈ written, ∃ y ∈ content s,
    key y = key x ∧ rank x ≤ rank y
  unique : ∀ s ∈ written, ∀ x ∈ content s, ∀ t ∈ written, ∀ y ∈ content t, key x = key y → x = y

/-- Level `m` is the place for what is moved: what stays below it is newer, and what stays above it
is older than the newest of its key that is moved. -/
structure MovesInPlace (before : Set σ) (m : ℕ) (moved : Set σ) : Prop where
  below : ∀ s ∈ before, s ∉ moved → level s < m → ∀ t ∈ moved,
    NewerThan key rank (content s) (content t)
  above : ∀ s ∈ before, s ∉ moved → m < level s → ∀ x ∈ content s, ∀ t ∈ moved, ∀ y ∈ content t,
    key y = key x → ∃ u ∈ moved, ∃ z ∈ content u, key z = key x ∧ rank x < rank z

variable {level content key rank}

namespace Replaces

variable {before after moved written : Set σ} {m : ℕ}
  (h : Replaces level content key rank before after m moved written)

include h

/-- What is written for a key is as new as all that is moved. -/
theorem newest_of_mem {s t : σ} {x y : α} (hs : s ∈ written) (hx : x ∈ content s) (ht : t ∈ moved)
    (hy : y ∈ content t) (hkey : key y = key x) : rank y ≤ rank x := by
  obtain ⟨u, hu, z, hz, hzkey, hle⟩ := h.newest t ht y hy
  rwa [h.unique u hu z hz s hs x hx (hzkey.trans hkey)] at hle

/-- The levels stay in order if and only if the level is the place for what is moved. -/
theorem ordered_iff (hordered : OrderedLevels level content key rank before) :
    OrderedLevels level content key rank after ↔
      MovesInPlace level content key rank before m moved := by
  constructor
  · intro hafter
    refine ⟨fun s hs hstays hlt t ht x hx y hy hkey => ?_,
      fun s hs hstays hlt x hx t ht y hy hkey => ?_⟩
    · have hsafter := (h.left s).mpr (Or.inr ⟨hs, hstays⟩)
      obtain ⟨u, hu, z, hz, hzkey, hle⟩ := h.newest t ht y hy
      have huafter := (h.left u).mpr (Or.inl hu)
      have hnewer := hafter s hsafter u huafter (hlt.trans_eq (h.placed u hu).symm)
      exact hle.trans_lt (hnewer x hx z hz (hkey.trans hzkey.symm))
    · have hsafter := (h.left s).mpr (Or.inr ⟨hs, hstays⟩)
      obtain ⟨u, hu, z, hz, hzkey, -⟩ := h.newest t ht y hy
      have huafter := (h.left u).mpr (Or.inl hu)
      have hnewer := hafter u huafter s hsafter ((h.placed u hu).trans_lt hlt)
      obtain ⟨v, hv, hzv⟩ := h.taken u hu z hz
      exact ⟨v, hv, z, hzv, hzkey.trans hkey, hnewer z hz x hx (hzkey.trans hkey)⟩
  · intro hplace s hs t ht hlt x hx y hy hkey
    obtain hsw | ⟨hsb, hsstays⟩ := (h.left s).mp hs
    · obtain htw | ⟨htb, htstays⟩ := (h.left t).mp ht
      · rw [h.placed s hsw, h.placed t htw] at hlt
        exact absurd hlt (lt_irrefl m)
      · rw [h.placed s hsw] at hlt
        obtain ⟨v, hv, hxv⟩ := h.taken s hsw x hx
        obtain ⟨u, hu, z, hz, hzkey, hzlt⟩ := hplace.above t htb htstays hlt y hy v hv x hxv hkey
        exact hzlt.trans_le (h.newest_of_mem hsw hx hu hz (hzkey.trans hkey.symm))
    · obtain htw | ⟨htb, -⟩ := (h.left t).mp ht
      · rw [h.placed t htw] at hlt
        obtain ⟨v, hv, hyv⟩ := h.taken t htw y hy
        exact hplace.below s hsb hsstays hlt v hv x hx y hyv hkey
      · exact hordered s hsb t htb hlt x hx y hy hkey

end Replaces

end Rkvs.Library

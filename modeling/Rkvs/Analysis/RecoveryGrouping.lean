import Rkvs.Analysis.RecoveryFiles

/-!
# Levels from segments

The loop over the segments, sorted by the numbers of their levels, gives one partitioned level for
every number that occurs, in the order of the numbers.
-/

set_option autoImplicit false

namespace Rkvs.Analysis

open Rkvs.Library Rkvs.Model Rkvs.Interface

/-- The segments that belong into the level with the number. -/
def ofLevel (segments : List Sst.Segment) (n : ℕ) : List Sst.Segment :=
  segments.filter fun s => s.levelNumber = n

/-- The segments in the order of their numbers. -/
def byNumber (segments : List Sst.Segment) : List Sst.Segment :=
  segments.mergeSort fun s t => s.number ≤ t.number

/-- INTERNAL: segments that are sorted by a number are in its order. -/
theorem sorted_mergeSort (f : Sst.Segment → ℕ) (segments : List Sst.Segment) :
    (segments.mergeSort fun s t => f s ≤ f t).Pairwise fun s t => f s ≤ f t := by
  have hsorted := @List.pairwise_mergeSort Sst.Segment (fun s t => decide (f s ≤ f t))
    (fun a b c hab hbc => decide_eq_true ((of_decide_eq_true hab).trans (of_decide_eq_true hbc)))
    (fun a b => by simpa using Nat.le_total (f a) (f b)) segments
  exact hsorted.imp of_decide_eq_true

/-- INTERNAL: the segments of a level are those with its number. -/
theorem mem_ofLevel {segments : List Sst.Segment} {n : ℕ} {s : Sst.Segment} :
    s ∈ ofLevel segments n ↔ s ∈ segments ∧ s.levelNumber = n := by
  unfold ofLevel
  rw [List.mem_filter, decide_eq_true_eq]

/-- INTERNAL: sorting keeps the segments. -/
theorem mem_byNumber {segments : List Sst.Segment} {s : Sst.Segment} :
    s ∈ byNumber segments ↔ s ∈ segments := List.mem_mergeSort

/-- INTERNAL: and does not repeat them. -/
theorem nodup_byNumber {segments : List Sst.Segment} (h : segments.Nodup) :
    (byNumber segments).Nodup := (List.mergeSort_perm ..).nodup_iff.mpr h

/-- INTERNAL: one segment of the level more. -/
theorem ofLevel_cons_self (s : Sst.Segment) (segments : List Sst.Segment) :
    ofLevel (s :: segments) s.levelNumber = s :: ofLevel segments s.levelNumber :=
  List.filter_cons_of_pos (by simp)

/-- INTERNAL: a segment of another level. -/
theorem ofLevel_cons_of_ne {s : Sst.Segment} {n : ℕ} (h : s.levelNumber ≠ n)
    (segments : List Sst.Segment) : ofLevel (s :: segments) n = ofLevel segments n :=
  List.filter_cons_of_neg (by simpa using h)

/-- INTERNAL: the segments of a level in two lists. -/
theorem ofLevel_append (segments others : List Sst.Segment) (n : ℕ) :
    ofLevel (segments ++ others) n = ofLevel segments n ++ ofLevel others n := List.filter_append ..

/-- INTERNAL: all segments are of the level. -/
theorem ofLevel_eq_self {segments : List Sst.Segment} {n : ℕ}
    (h : ∀ s ∈ segments, s.levelNumber = n) : ofLevel segments n = segments :=
  List.filter_eq_self.mpr fun s hs => decide_eq_true (h s hs)

/-- INTERNAL: no segment is of the level. -/
theorem ofLevel_eq_nil {segments : List Sst.Segment} {n : ℕ}
    (h : ∀ s ∈ segments, s.levelNumber ≠ n) : ofLevel segments n = [] :=
  List.filter_eq_nil_iff.mpr fun s hs => by simpa using h s hs

/-- The levels are those of the segments: one level for each number but zero. -/
structure Grouped (levelZeroTargetSize levelSizeFactor : ℕ) (segments : List Sst.Segment)
    (levels : List Sst.PartitionedLevel) : Prop where
  holds : ∀ level ∈ levels, level.segments = byNumber (ofLevel segments level.levelNumber)
  target : ∀ level ∈ levels, Sst.LevelContainer.levelTargetSize levelZeroTargetSize
    levelSizeFactor level.levelNumber = .ok level.targetSize
  ascending : levels.Pairwise fun l m => l.levelNumber < m.levelNumber
  inhabited : ∀ level ∈ levels, ∃ s ∈ segments, s.levelNumber = level.levelNumber
  positive : ∀ level ∈ levels, 0 < level.levelNumber
  complete : ∀ s ∈ segments, 0 < s.levelNumber → ∃ level ∈ levels,
    level.levelNumber = s.levelNumber

section
variable {levelZeroTargetSize levelSizeFactor : ℕ}

/-- INTERNAL: one more level, below all others. -/
theorem Grouped.cons {higher rest : List Sst.Segment} {level : Sst.PartitionedLevel}
    {levels : List Sst.PartitionedLevel}
    (h : Grouped levelZeroTargetSize levelSizeFactor rest levels)
    (hne : higher ≠ []) (hhigher : ∀ s ∈ higher, s.levelNumber = level.levelNumber)
    (hpos : 0 < level.levelNumber) (hrest : ∀ s ∈ rest, level.levelNumber < s.levelNumber)
    (hsegments : level.segments = byNumber higher)
    (htarget : Sst.LevelContainer.levelTargetSize levelZeroTargetSize levelSizeFactor
      level.levelNumber = .ok level.targetSize) :
    Grouped levelZeroTargetSize levelSizeFactor (higher ++ rest) (level :: levels) := by
  have hlower : ∀ m ∈ levels, level.levelNumber < m.levelNumber := by
    intro m hm
    obtain ⟨s, hs, hnumber⟩ := h.inhabited m hm
    exact hnumber ▸ hrest s hs
  refine ⟨?_, ?_, List.pairwise_cons.mpr ⟨hlower, h.ascending⟩, ?_, ?_, ?_⟩
  · intro m hm
    rw [ofLevel_append]
    obtain rfl | hm := List.mem_cons.mp hm
    · rw [ofLevel_eq_self hhigher, ofLevel_eq_nil fun s hs => (hrest s hs).ne', List.append_nil,
        hsegments]
    · have hnone : ∀ s ∈ higher, s.levelNumber ≠ m.levelNumber := by
        intro s hs
        rw [hhigher s hs]
        exact (hlower m hm).ne
      rw [ofLevel_eq_nil hnone, List.nil_append, h.holds m hm]
  · intro m hm
    obtain rfl | hm := List.mem_cons.mp hm
    · exact htarget
    · exact h.target m hm
  · intro m hm
    obtain rfl | hm := List.mem_cons.mp hm
    · obtain ⟨s, higher', rfl⟩ := List.exists_cons_of_ne_nil hne
      exact ⟨s, List.mem_cons_self .., hhigher s (List.mem_cons_self ..)⟩
    · obtain ⟨s, hs, hnumber⟩ := h.inhabited m hm
      exact ⟨s, List.mem_append_right _ hs, hnumber⟩
  · intro m hm
    obtain rfl | hm := List.mem_cons.mp hm
    · exact hpos
    · exact h.positive m hm
  · intro s hs hspos
    obtain hs | hs := List.mem_append.mp hs
    · exact ⟨level, List.mem_cons_self .., (hhigher s hs).symm⟩
    · obtain ⟨m, hm, hnumber⟩ := h.complete s hs hspos
      exact ⟨m, List.mem_cons_of_mem _ hm, hnumber⟩

/-- INTERNAL: a segment of level zero belongs to no partitioned level. -/
theorem Grouped.zero {s : Sst.Segment} {segments : List Sst.Segment}
    {levels : List Sst.PartitionedLevel}
    (h : Grouped levelZeroTargetSize levelSizeFactor segments levels) (hs : s.levelNumber = 0) :
    Grouped levelZeroTargetSize levelSizeFactor (s :: segments) levels where
  holds level hlevel := by
    rw [ofLevel_cons_of_ne (hs ▸ (h.positive level hlevel).ne), h.holds level hlevel]
  target := h.target
  ascending := h.ascending
  inhabited level hlevel := by
    obtain ⟨t, ht, hnumber⟩ := h.inhabited level hlevel
    exact ⟨t, List.mem_cons_of_mem _ ht, hnumber⟩
  positive := h.positive
  complete t ht hpos := by
    obtain rfl | ht := List.mem_cons.mp ht
    · exact absurd hs hpos.ne'
    · exact h.complete t ht hpos

/-- INTERNAL: no level for no segment. -/
theorem grouped_nil : Grouped levelZeroTargetSize levelSizeFactor [] [] :=
  ⟨fun _ h => absurd h List.not_mem_nil, fun _ h => absurd h List.not_mem_nil, List.Pairwise.nil,
    fun _ h => absurd h List.not_mem_nil, fun _ h => absurd h List.not_mem_nil,
    fun _ h => absurd h List.not_mem_nil⟩

/-- The loop gives the segments of level zero and the levels of the others. What it has gathered
for a level belongs to the level of the next segment.
SOURCE: level.rs:123-156 -/
theorem groupLoop_ok (sparsity : ℕ) {segments zero higher : List Sst.Segment}
    {levels : List Sst.PartitionedLevel}
    (hsorted : segments.Pairwise fun s t => s.levelNumber ≤ t.levelNumber)
    (hhigher : ∀ t ∈ higher, 0 < t.levelNumber ∧
      ∃ s ∈ segments.head?, s.levelNumber = t.levelNumber)
    (htargets : ∀ s ∈ segments, 0 < s.levelNumber → ∃ targetSize,
      Sst.LevelContainer.levelTargetSize levelZeroTargetSize levelSizeFactor s.levelNumber =
        .ok targetSize) :
    ∃ tail, Sst.LevelContainer.groupLoop levelZeroTargetSize levelSizeFactor sparsity segments zero
        higher levels = .ok (zero ++ ofLevel segments 0, levels ++ tail) ∧
      Grouped levelZeroTargetSize levelSizeFactor (higher ++ segments) tail := by
  induction segments generalizing zero higher levels with
  | nil =>
    have hempty : higher = [] := by
      refine List.eq_nil_iff_forall_not_mem.mpr fun t ht => ?_
      obtain ⟨-, s, hs, -⟩ := hhigher t ht
      cases hs
    subst hempty
    refine ⟨[], ?_, grouped_nil⟩
    rw [Sst.LevelContainer.groupLoop, ofLevel, List.filter_nil, List.append_nil, List.append_nil]
  | cons s segments ih =>
    obtain ⟨hhead, htail⟩ := List.pairwise_cons.mp hsorted
    have hrest := fun t ht => htargets t (List.mem_cons_of_mem s ht)
    have hsame : ∀ t ∈ higher, t.levelNumber = s.levelNumber := by
      intro t ht
      obtain ⟨-, s', hs', hnumber⟩ := hhigher t ht
      cases hs'
      exact hnumber.symm
    rw [Sst.LevelContainer.groupLoop]
    by_cases hzero : s.levelNumber = 0
    · have hempty : higher = [] := by
        refine List.eq_nil_iff_forall_not_mem.mpr fun t ht => ?_
        exact absurd ((hsame t ht).trans hzero) (hhigher t ht).1.ne'
      subst hempty
      obtain ⟨tail, hrun, hgrouped⟩ := @ih (zero ++ [s]) [] levels htail
        (fun t ht => absurd ht List.not_mem_nil) hrest
      refine ⟨tail, ?_, hgrouped.zero hzero⟩
      have hfirst := ofLevel_cons_self s segments
      rw [hzero] at hfirst
      rw [if_pos hzero, hrun, hfirst, List.append_assoc, List.singleton_append]
    · have hpos : 0 < s.levelNumber := Nat.pos_of_ne_zero hzero
      have hgathered : ∀ t ∈ higher ++ [s], t.levelNumber = s.levelNumber := by
        intro t ht
        obtain ht | ht := List.mem_append.mp ht
        · exact hsame t ht
        · rw [List.mem_singleton.mp ht]
      have hmoved : higher ++ s :: segments = (higher ++ [s]) ++ segments := List.append_cons ..
      rw [if_neg hzero, ofLevel_cons_of_ne hzero, hmoved]
      by_cases hclose : ∀ next ∈ segments.head?, next.levelNumber > s.levelNumber
      · -- the level is complete: all that come are of higher levels
        obtain ⟨targetSize, htarget⟩ := htargets s (List.mem_cons_self ..) hpos
        have hhigherRest : ∀ t ∈ segments, s.levelNumber < t.levelNumber := by
          intro t ht
          cases segments with
          | nil => cases ht
          | cons next segments =>
            have hnext := hclose next rfl
            obtain rfl | ht := List.mem_cons.mp ht
            · exact hnext
            · exact hnext.trans_le ((List.pairwise_cons.mp htail).1 t ht)
        obtain ⟨tail, hrun, hgrouped⟩ := @ih zero [] (levels ++ [⟨byNumber (higher ++ [s]), targetSize,
          sparsity, s.levelNumber⟩]) htail (fun t ht => absurd ht List.not_mem_nil) hrest
        refine ⟨⟨byNumber (higher ++ [s]), targetSize, sparsity, s.levelNumber⟩ :: tail, ?_,
          hgrouped.cons (List.append_ne_nil_of_right_ne_nil _ (List.cons_ne_nil _ _)) hgathered hpos
            hhigherRest rfl htarget⟩
        have hlevel : Sst.LevelContainer.closeLevel levelZeroTargetSize levelSizeFactor sparsity
            (higher ++ [s]) s.levelNumber =
              .ok ⟨byNumber (higher ++ [s]), targetSize, sparsity, s.levelNumber⟩ := by
          unfold Sst.LevelContainer.closeLevel
          rw [htarget, exec_ok_bind]
          rfl
        rw [if_pos hclose, hlevel, exec_ok_bind, hrun, List.append_assoc, List.singleton_append]
      · -- the next segment is of the same level
        rw [if_neg hclose]
        push Not at hclose
        obtain ⟨next, hnext, hle⟩ := hclose
        have hsameNext : next.levelNumber = s.levelNumber :=
          Nat.le_antisymm hle (hhead next (List.mem_of_head? hnext))
        exact @ih zero (higher ++ [s]) levels htail
          (fun t ht => ⟨hgathered t ht ▸ hpos, next, hnext, hsameNext.trans (hgathered t ht).symm⟩)
          hrest

end

end Rkvs.Analysis

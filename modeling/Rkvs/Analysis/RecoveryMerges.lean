import Rkvs.Analysis.RecoverySteps

/-!
# What a restart returns

A restart that returns with level zero within its target has the levels of the files it has
opened, and perhaps more levels behind them, which hold entries of the others.
-/

set_option autoImplicit false

namespace Rkvs.Analysis

open Rkvs.Library Rkvs.Model Rkvs.Interface

section
variable {levelZeroTargetSize levelSizeFactor sparsity : ℕ}

/-- INTERNAL: a level that does not exceed its target has no segments to merge. -/
theorem segmentsToMerge_of_within {level : Sst.PartitionedLevel}
    (h : level.exceedsTargetSize = .ok false) : level.segmentsToMerge = .ok [] := by
  obtain ⟨size, hsize, hdecide⟩ := exec_bind_eq_ok.mp h
  have hle : ¬size > level.targetSize := of_decide_eq_false (Except.ok.inj hdecide)
  exact selectForMerge_within hsize (Nat.not_lt.mp hle)

variable {merge : Sst.Merge}

/-- INTERNAL: only the last level can ask for a merge.
SOURCE: level.rs:164-203 -/
theorem recoverLevels_eq_ok {levels recovered res : List Sst.PartitionedLevel}
    {selected : List Sst.Segment} {d d' : Dir}
    (hcheck : Sst.LevelContainer.checkMerges levels = .ok ())
    (h : (Sst.LevelContainer.recoverLevels merge levels [] recovered).run d =
      .ok (res, selected) d') :
    res = recovered ++ levels ∧ ∀ s ∈ selected, ∃ level ∈ levels, s ∈ level.segments := by
  induction levels generalizing recovered with
  | nil =>
    cases h
    exact ⟨(List.append_nil _).symm, fun s hs => absurd hs List.not_mem_nil⟩
  | cons level levels ih =>
    obtain ⟨level, _, chosen, ⟨-, rfl, rfl⟩ | ⟨hne, -⟩, hchosen, hrest⟩ := recoverLevels_cons h
    swap
    · exact absurd rfl hne
    rw [Sst.LevelContainer.checkMerges] at hcheck
    obtain ⟨exceeds, hexceeds, hlater⟩ := exec_bind_eq_ok.mp hcheck
    by_cases hlast : levels = []
    · subst hlast
      cases hrest
      exact ⟨rfl, fun s hs => ⟨level, List.mem_cons_self .., selectForMerge_subset hchosen s hs⟩⟩
    · have hwithin : exceeds = false := by
        by_contra hnot
        rw [if_pos ⟨Bool.eq_true_of_not_eq_false hnot, hlast⟩] at hlater
        cases hlater
      subst hwithin
      cases hchosen.symm.trans (segmentsToMerge_of_within hexceeds)
      rw [if_neg fun hboth => Bool.false_ne_true hboth.1] at hlater
      obtain ⟨hres, hsub⟩ := ih hlater hrest
      refine ⟨by rw [hres, List.append_assoc, List.singleton_append], fun s hs => ?_⟩
      obtain ⟨m, hm, hmem⟩ := hsub s hs
      exact ⟨m, List.mem_cons_of_mem _ hm, hmem⟩

/-- INTERNAL: the levels that are added hold entries of the segments that are merged.
SOURCE: level.rs:205-217 -/
theorem addLevels_eq_ok (hmerge : MergesNewest merge) {fuel : ℕ}
    {recovered res : List Sst.PartitionedLevel} {selected : List Sst.Segment} {d d' : Dir}
    (hwhole : ∀ s ∈ selected, Whole s)
    (h : (Sst.LevelContainer.addLevels levelZeroTargetSize levelSizeFactor merge fuel recovered
      selected).run d = .ok res d') :
    ∃ added, res = recovered ++ added ∧ ∀ level ∈ added, GoodLevel level ∧
      ∀ e ∈ allEntries level.segments, e ∈ allEntries selected := by
  induction fuel generalizing recovered selected d with
  | zero =>
    cases selected with
    | nil =>
      obtain ⟨rfl, -⟩ := addLevels_nil h
      exact ⟨[], (List.append_nil _).symm, fun l hl => absurd hl List.not_mem_nil⟩
    | cons s selected => cases h
  | succ fuel ih =>
    cases selected with
    | nil =>
      obtain ⟨rfl, -⟩ := addLevels_nil h
      exact ⟨[], (List.append_nil _).symm, fun l hl => absurd hl List.not_mem_nil⟩
    | cons s selected =>
      obtain ⟨_, targetSize, newLevel, d₁, chosen, hmore, -, hrun, hchosen, hrest⟩ :=
        addLevels_cons (List.cons_ne_nil s selected) h
      cases hmore
      obtain ⟨deleted, d₂, hmergeRun, -⟩ := mergeAndRemove_eq_ok hrun
      have hempty : GoodLevel (Sst.PartitionedLevel.new targetSize (recovered.length + 1)) :=
        ⟨List.Pairwise.nil, fun t ht => absurd ht List.not_mem_nil⟩
      obtain ⟨hgood, hnewest⟩ := hmerge _ _ _ _ _ _ hempty hwhole hmergeRun
      have hsub : ∀ e ∈ allEntries newLevel.segments, e ∈ allEntries (s :: selected) := by
        intro e he
        have hfound := entryFor_of_mem (nodup_keys hgood.partitioned hgood.whole) he
        have hnew := hnewest e.key
        rw [hfound] at hnew
        exact hnew.1
      have hchosenSub := selectForMerge_subset hchosen
      obtain ⟨added, hres, hadded⟩ := ih (fun t ht => hgood.whole t (hchosenSub t ht)) hrest
      refine ⟨newLevel :: added, by rw [hres, List.append_assoc, List.singleton_append],
        fun l hl => ?_⟩
      obtain rfl | hl := List.mem_cons.mp hl
      · exact ⟨hgood, hsub⟩
      · obtain ⟨hgoodl, hsubl⟩ := hadded l hl
        refine ⟨hgoodl, fun e he => hsub e ?_⟩
        obtain ⟨t, ht, het⟩ := mem_allEntries.mp (hsubl e he)
        exact mem_allEntries.mpr ⟨t, hchosenSub t ht, het⟩

/-- INTERNAL: what a restart returns that has nothing of level zero to merge.
SOURCE: level.rs:111-222 -/
theorem fromDir_eq_ok (hmerge : MergesNewest merge) {fuel : ℕ} {dir d d' : Dir}
    {opened : List Sst.Segment} {c : Sst.LevelContainer}
    (hopen : (Sst.LevelContainer.openSegments dir.names).run dir = .ok opened d)
    (hwhole : ∀ s ∈ opened, Whole s) (hlt : levelZeroTargetSize < 2 ^ 64)
    (hzero : fileSizes (ofLevel opened 0) ≤ levelZeroTargetSize)
    (h : (Sst.LevelContainer.fromDir levelZeroTargetSize levelSizeFactor sparsity merge fuel).run
      dir = .ok c d') :
    ∃ sorted levels added,
      c = ⟨⟨byNumber (ofLevel sorted 0), levelZeroTargetSize⟩, levels ++ added⟩ ∧
      sorted.Perm opened ∧ Grouped levelZeroTargetSize levelSizeFactor sorted levels ∧
      ∀ l ∈ added, GoodLevel l ∧ ∀ e ∈ allEntries l.segments, ∃ m ∈ levels,
        e ∈ allEntries m.segments := by
  obtain ⟨opened', d₁, hopen', hsteps⟩ := fromDir_steps h
  cases hopen.symm.trans hopen'
  obtain ⟨rfl, rfl, -⟩ | ⟨sorted, levels, recovered, res, chosen, selected, mid, hsteps, rfl⟩ :=
    hsteps
  · have hnone : byNumber (ofLevel [] 0) = [] := List.mergeSort_nil
    refine ⟨[], [], [], ?_, List.Perm.refl _, grouped_nil, fun l hl => absurd hl List.not_mem_nil⟩
    rw [hnone]
    rfl
  · obtain ⟨-, hperm, -, hgrouped, hcheck, hchosen, hrecovered, hadded⟩ := hsteps
    have hsize : fileSizes (byNumber (ofLevel sorted 0)) = fileSizes (ofLevel opened 0) :=
      fileSizes_perm ((List.mergeSort_perm ..).trans (hperm.filter _))
    have hnone : Sst.OverlappingLevel.segmentsToMerge
        ⟨byNumber (ofLevel sorted 0), levelZeroTargetSize⟩ = .ok [] := by
      refine selectForMerge_within (totalSize_ok ?_) (hsize ▸ hzero)
      rw [hsize]
      exact hzero.trans_lt hlt
    cases hchosen.symm.trans hnone
    obtain ⟨rfl, hsub⟩ := recoverLevels_eq_ok hcheck hrecovered
    have hselected : ∀ s ∈ selected, Whole s := by
      intro s hs
      obtain ⟨level, hlevel, hmem⟩ := hsub s hs
      rw [hgrouped.holds level hlevel] at hmem
      exact hwhole s (hperm.mem_iff.mp (mem_ofLevel.mp (mem_byNumber.mp hmem)).1)
    obtain ⟨added, rfl, hgood⟩ := addLevels_eq_ok hmerge hselected hadded
    refine ⟨sorted, recovered, added, rfl, hperm, hgrouped, fun l hl => ?_⟩
    obtain ⟨hgoodl, hfrom⟩ := hgood l hl
    refine ⟨hgoodl, fun e he => ?_⟩
    obtain ⟨s, hs, hes⟩ := mem_allEntries.mp (hfrom e he)
    obtain ⟨level, hlevel, hmem⟩ := hsub s hs
    exact ⟨level, hlevel, mem_allEntries.mpr ⟨s, hmem, hes⟩⟩

end

end Rkvs.Analysis

import Rkvs.Analysis.Recovery

/-!
# The steps of a restart

A restart that returns has opened the files, grouped the segments into levels, merged into those
levels what was too much, and perhaps added levels for the rest.
-/

set_option autoImplicit false

namespace Rkvs.Analysis

open Rkvs.Library Rkvs.Model Rkvs.Interface

section
variable {levelZeroTargetSize levelSizeFactor sparsity fuel : ℕ} {merge : Sst.Merge}

/-- INTERNAL: a loop that returns has computed the targets of all levels.
SOURCE: level.rs:123-156 -/
theorem groupLoop_targets {segments zero higher : List Sst.Segment}
    {levels : List Sst.PartitionedLevel} {res : List Sst.Segment × List Sst.PartitionedLevel}
    (hsorted : segments.Pairwise fun s t => s.levelNumber ≤ t.levelNumber)
    (h : Sst.LevelContainer.groupLoop levelZeroTargetSize levelSizeFactor sparsity segments zero
      higher levels = .ok res) :
    ∀ s ∈ segments, 0 < s.levelNumber → ∃ targetSize,
      Sst.LevelContainer.levelTargetSize levelZeroTargetSize levelSizeFactor s.levelNumber =
        .ok targetSize := by
  induction segments generalizing zero higher levels with
  | nil => exact fun s hs => absurd hs List.not_mem_nil
  | cons s segments ih =>
    obtain ⟨hhead, htail⟩ := List.pairwise_cons.mp hsorted
    intro t ht hpos
    rw [Sst.LevelContainer.groupLoop] at h
    split at h
    · rename_i hzero
      obtain rfl | ht := List.mem_cons.mp ht
      · exact absurd hzero hpos.ne'
      · exact ih htail h t ht hpos
    · split at h
      · obtain ⟨level, hlevel, hrest⟩ := exec_bind_eq_ok.mp h
        obtain rfl | ht := List.mem_cons.mp ht
        · obtain ⟨targetSize, htarget, -⟩ := exec_bind_eq_ok.mp hlevel
          exact ⟨targetSize, htarget⟩
        · exact ih htail hrest t ht hpos
      · rename_i hopen
        obtain rfl | ht := List.mem_cons.mp ht
        · push Not at hopen
          obtain ⟨next, hnext, hle⟩ := hopen
          have hmem := List.mem_of_head? hnext
          have hsame : next.levelNumber = t.levelNumber := Nat.le_antisymm hle (hhead next hmem)
          exact hsame ▸ ih htail h next hmem (hsame ▸ hpos)
        · exact ih htail h t ht hpos

/-- INTERNAL: what a restart has gone through that found segments. -/
structure Recovered (levelZeroTargetSize levelSizeFactor sparsity fuel : ℕ) (merge : Sst.Merge)
    (opened : List Sst.Segment) (d : Dir) (sorted : List Sst.Segment)
    (levels recovered res : List Sst.PartitionedLevel) (chosen selected : List Sst.Segment)
    (mid d' : Dir) : Prop where
  order : sorted = opened.mergeSort fun s t => s.levelNumber ≤ t.levelNumber
  perm : sorted.Perm opened
  grouping : Sst.LevelContainer.groupLoop levelZeroTargetSize levelSizeFactor sparsity sorted [] []
    [] = .ok (ofLevel sorted 0, levels)
  grouped : Grouped levelZeroTargetSize levelSizeFactor sorted levels
  checked : Sst.LevelContainer.checkMerges levels = .ok ()
  choice : Sst.selectForMerge (byNumber (ofLevel sorted 0)) levelZeroTargetSize = .ok chosen
  recovery : (Sst.LevelContainer.recoverLevels merge levels chosen []).run d =
    .ok (recovered, selected) mid
  added : (Sst.LevelContainer.addLevels levelZeroTargetSize levelSizeFactor merge fuel recovered
    selected).run mid = .ok res d'

/-- A restart that returns, step by step.
SOURCE: level.rs:81-222 -/
theorem fromDir_steps {dir d' : Dir} {c : Sst.LevelContainer}
    (h : (Sst.LevelContainer.fromDir levelZeroTargetSize levelSizeFactor sparsity merge fuel).run
      dir = .ok c d') :
    ∃ opened d, (Sst.LevelContainer.openSegments dir.names).run dir = .ok opened d ∧
      ((opened = [] ∧ c = .new levelZeroTargetSize ∧ d' = d) ∨
        ∃ sorted levels recovered res chosen selected mid,
          Recovered levelZeroTargetSize levelSizeFactor sparsity fuel merge opened d sorted levels
            recovered res chosen selected mid d' ∧
          c = ⟨⟨byNumber (ofLevel sorted 0), levelZeroTargetSize⟩, res⟩) := by
  unfold Sst.LevelContainer.fromDir at h
  rw [run_bind_ok (EStateM.run_get dir)] at h
  obtain ⟨opened, d, hopen, hrest⟩ := run_bind_eq_ok h
  refine ⟨opened, d, hopen, ?_⟩
  by_cases hempty : opened = []
  · rw [if_pos hempty] at hrest
    cases hrest
    exact Or.inl ⟨hempty, rfl, rfl⟩
  · rw [if_neg hempty] at hrest
    dsimp only at hrest
    have hperm := List.mergeSort_perm opened fun s t => s.levelNumber ≤ t.levelNumber
    have hsorted := sorted_mergeSort Sst.Segment.levelNumber opened
    generalize horder : opened.mergeSort (fun s t => decide (s.levelNumber ≤ t.levelNumber)) =
      sorted at hperm hsorted hrest
    obtain ⟨⟨zero, levels⟩, _, hgroupRun, hchecked⟩ := run_bind_eq_ok hrest
    obtain ⟨hgroup, rfl⟩ := run_liftExec_eq_ok hgroupRun
    obtain ⟨levels', hgroup', hgrouped⟩ := @groupLoop_ok levelZeroTargetSize levelSizeFactor
      sparsity sorted [] [] [] hsorted (fun t ht => absurd ht List.not_mem_nil)
      (groupLoop_targets hsorted hgroup)
    cases hgroup.symm.trans hgroup'
    rw [List.nil_append] at hgrouped
    rw [List.nil_append, List.nil_append] at hgroup'
    dsimp only at hchecked
    rw [List.nil_append, List.nil_append] at hchecked
    obtain ⟨_, _, hcheckRun, hselect⟩ := run_bind_eq_ok hchecked
    obtain ⟨hcheck, rfl⟩ := run_liftExec_eq_ok hcheckRun
    obtain ⟨chosen, _, hchosenRun, hrecover⟩ := run_bind_eq_ok hselect
    obtain ⟨hchosen, rfl⟩ := run_liftExec_eq_ok hchosenRun
    obtain ⟨⟨recovered, selected⟩, mid, hrecovered, hadd⟩ := run_bind_eq_ok hrecover
    obtain ⟨res, _, hadded, hreturn⟩ := run_bind_eq_ok hadd
    cases hreturn
    exact Or.inr ⟨sorted, _, recovered, res, chosen, selected, mid,
      ⟨horder.symm, hperm, hgroup', hgrouped, hcheck, hchosen, hrecovered, hadded⟩, rfl⟩

/-- INTERNAL: a merge whose segments are removed.
SOURCE: level.rs:193-196, 211-214 -/
theorem mergeAndRemove_eq_ok {level newLevel : Sst.PartitionedLevel} {chosen : List Sst.Segment}
    {d d' : Dir}
    (h : (Sst.LevelContainer.mergeAndRemove merge level chosen).run d = .ok newLevel d') :
    ∃ deleted mid, (merge level chosen).run d = .ok (newLevel, deleted) mid ∧
      (deleted.forM fun segment => Dir.remove segment.filepath).run mid = .ok () d' := by
  obtain ⟨⟨newLevel', deleted⟩, mid, hmerge, hremove⟩ := run_bind_eq_ok h
  obtain ⟨⟨⟩, mid', hremoved, hreturn⟩ := run_bind_eq_ok hremove
  cases hreturn
  exact ⟨deleted, mid, hmerge, hremoved⟩

/-- INTERNAL: one level of those that were found.
SOURCE: level.rs:191-202 -/
theorem recoverLevels_cons {level : Sst.PartitionedLevel}
    {levels recovered : List Sst.PartitionedLevel} {chosen : List Sst.Segment}
    {res : List Sst.PartitionedLevel × List Sst.Segment} {d d' : Dir}
    (h : (Sst.LevelContainer.recoverLevels merge (level :: levels) chosen recovered).run d =
      .ok res d') :
    ∃ newLevel mid chosen', (chosen = [] ∧ newLevel = level ∧ mid = d ∨
        chosen ≠ [] ∧ (Sst.LevelContainer.mergeAndRemove merge level chosen).run d =
          .ok newLevel mid) ∧
      newLevel.segmentsToMerge = .ok chosen' ∧
      (Sst.LevelContainer.recoverLevels merge levels chosen' (recovered ++ [newLevel])).run mid =
        .ok res d' := by
  rw [Sst.LevelContainer.recoverLevels] at h
  by_cases hempty : chosen = []
  · rw [if_pos hempty] at h
    obtain ⟨newLevel, mid, hpure, hselect⟩ := run_bind_eq_ok h
    cases hpure
    obtain ⟨chosen', mid', hchosen, hrest⟩ := run_bind_eq_ok hselect
    obtain ⟨hselected, rfl⟩ := run_liftExec_eq_ok hchosen
    exact ⟨level, _, chosen', Or.inl ⟨hempty, rfl, rfl⟩, hselected, hrest⟩
  · rw [if_neg hempty] at h
    obtain ⟨newLevel, mid, hmerge, hselect⟩ := run_bind_eq_ok h
    obtain ⟨chosen', mid', hchosen, hrest⟩ := run_bind_eq_ok hselect
    obtain ⟨hselected, rfl⟩ := run_liftExec_eq_ok hchosen
    exact ⟨newLevel, _, chosen', Or.inr ⟨hempty, hmerge⟩, hselected, hrest⟩

/-- INTERNAL: one level that is added.
SOURCE: level.rs:206-217 -/
theorem addLevels_cons {recovered res : List Sst.PartitionedLevel} {selected : List Sst.Segment}
    {d d' : Dir} (hne : selected ≠ [])
    (h : (Sst.LevelContainer.addLevels levelZeroTargetSize levelSizeFactor merge fuel recovered
      selected).run d = .ok res d') :
    ∃ more targetSize newLevel mid selected', fuel = more + 1 ∧
      Sst.LevelContainer.levelTargetSize levelZeroTargetSize levelSizeFactor
        (recovered.length + 1) = .ok targetSize ∧
      (Sst.LevelContainer.mergeAndRemove merge
        (Sst.PartitionedLevel.new targetSize (recovered.length + 1)) selected).run d =
          .ok newLevel mid ∧
      newLevel.segmentsToMerge = .ok selected' ∧
      (Sst.LevelContainer.addLevels levelZeroTargetSize levelSizeFactor merge more
        (recovered ++ [newLevel]) selected').run mid = .ok res d' := by
  obtain ⟨s, selected, rfl⟩ := List.exists_cons_of_ne_nil hne
  cases fuel with
  | zero => cases h
  | succ fuel =>
    simp only [Sst.LevelContainer.addLevels] at h
    obtain ⟨targetSize, _, hsize, hmerged⟩ := run_bind_eq_ok h
    obtain ⟨htarget, rfl⟩ := run_liftExec_eq_ok hsize
    obtain ⟨newLevel, mid, hmerge, hselect⟩ := run_bind_eq_ok hmerged
    obtain ⟨selected', _, hchosen, hrest⟩ := run_bind_eq_ok hselect
    obtain ⟨hselected, rfl⟩ := run_liftExec_eq_ok hchosen
    exact ⟨fuel, targetSize, newLevel, _, selected', rfl, htarget, hmerge, hselected, hrest⟩

theorem addLevels_nil {recovered res : List Sst.PartitionedLevel} {d d' : Dir}
    (h : (Sst.LevelContainer.addLevels levelZeroTargetSize levelSizeFactor merge fuel recovered
      []).run d = .ok res d') : res = recovered ∧ d' = d := by
  cases fuel <;> (cases h; exact ⟨rfl, rfl⟩)

end

end Rkvs.Analysis

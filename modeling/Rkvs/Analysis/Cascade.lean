import Rkvs.Analysis.CompactionLoop
import Rkvs.Analysis.MergeNames
import Rkvs.Analysis.MergeResult
import Rkvs.Analysis.Selection
import Rkvs.Interface.Cascade

/-!
# Segments that a compaction merges down

A compaction that returns is a cascade. The segments that a round merges are those to delete, and
the next round merges segments of a level that was put into the result as it was before.
-/

set_option autoImplicit false

namespace Rkvs.Analysis

open Rkvs.Library Rkvs.Model Rkvs.Interface

/-! ## The rounds -/

section
variable {merge : Sst.Merge} {levels res : List Sst.PartitionedLevel} {chosen : List Sst.Segment}
  {target number : ℕ} {bt bt' : Sst.CompactionBt}

/-- INTERNAL: what a round merges into.
SOURCE: compaction.rs:53-75 -/
theorem compactRound_eq_ok {newLevel : Sst.PartitionedLevel} {target' : ℕ}
    (h : (Sst.CompactionBt.compactRound merge levels chosen target number).run bt =
      .ok (newLevel, target') bt') :
    ∃ deleted dir, (merge (levels.headD
        (Sst.PartitionedLevel.new (target * bt.levelSizeFactor) number)) chosen).run bt.dir =
          .ok (newLevel, deleted) dir ∧
      bt' = { bt with dir := dir, segmentsToDelete := bt.segmentsToDelete ++ deleted } ∧
      target' = (levels.head?.map Sst.PartitionedLevel.targetSize).getD target := by
  have hinto : ∀ {level : Sst.PartitionedLevel},
      (Sst.CompactionBt.mergeInto merge level chosen).run bt = .ok newLevel bt' →
        ∃ deleted dir, (merge level chosen).run bt.dir = .ok (newLevel, deleted) dir ∧
          bt' = { bt with dir := dir, segmentsToDelete := bt.segmentsToDelete ++ deleted } := by
    intro level hmerge
    obtain ⟨⟨level₁, deleted⟩, bt₁, hdir, hnote⟩ := run_bind_eq_ok hmerge
    obtain ⟨dir, hrun, rfl⟩ := run_onPart_eq_ok hdir
    cases hnote
    exact ⟨deleted, dir, hrun, rfl⟩
  cases levels with
  | nil =>
    obtain ⟨factor, bt₁, hget, h₁⟩ := run_bind_eq_ok h
    cases hget
    obtain ⟨size, bt₂, hsize, h₂⟩ := run_bind_eq_ok h₁
    obtain ⟨hmul, rfl⟩ := run_liftExec_eq_ok hsize
    obtain ⟨level, bt₃, hmerge, hreturn⟩ := run_bind_eq_ok h₂
    cases hreturn
    obtain ⟨deleted, dir, hrun, hbt⟩ := hinto hmerge
    rw [← (checkedMul_eq_ok hmul).1] at hrun
    exact ⟨deleted, dir, hrun, hbt, rfl⟩
  | cons level levels =>
    obtain ⟨level₁, bt₁, hmerge, hreturn⟩ := run_bind_eq_ok h
    cases hreturn
    obtain ⟨deleted, dir, hrun, hbt⟩ := hinto hmerge
    exact ⟨deleted, dir, hrun, hbt, rfl⟩

/-- INTERNAL: a merge into a level, noted.
SOURCE: compaction.rs:57-60, 70-73 -/
theorem mergeInto_run {level newLevel : Sst.PartitionedLevel} {deleted : List Sst.Segment}
    {dir : Dir} (h : (merge level chosen).run bt.dir = .ok (newLevel, deleted) dir) :
    (Sst.CompactionBt.mergeInto merge level chosen).run bt = .ok newLevel
      { bt with dir := dir, segmentsToDelete := bt.segmentsToDelete ++ deleted } := by
  unfold Sst.CompactionBt.mergeInto
  rw [run_bind_ok (run_onPart_ok Sst.CompactionBt.dirPart h)]
  rfl

/-- INTERNAL: a round whose merge returns.
SOURCE: compaction.rs:53-75 -/
theorem compactRound_run {newLevel : Sst.PartitionedLevel} {deleted : List Sst.Segment} {dir : Dir}
    (hfactor : levels = [] → target * bt.levelSizeFactor < 2 ^ 64)
    (h : (merge (levels.headD (Sst.PartitionedLevel.new (target * bt.levelSizeFactor) number))
      chosen).run bt.dir = .ok (newLevel, deleted) dir) :
    (Sst.CompactionBt.compactRound merge levels chosen target number).run bt =
      .ok (newLevel, (levels.head?.map Sst.PartitionedLevel.targetSize).getD target)
        { bt with dir := dir, segmentsToDelete := bt.segmentsToDelete ++ deleted } := by
  unfold Sst.CompactionBt.compactRound
  cases levels with
  | nil =>
    have hmerge := mergeInto_run h
    rw [List.headD_nil] at hmerge
    dsimp only
    rw [run_bind_ok (EStateM.run_get bt), checkedMul_ok (hfactor rfl),
      run_bind_ok (run_liftExec_ok ..), run_bind_ok hmerge]
    rfl
  | cons level levels =>
    have hmerge := mergeInto_run h
    rw [List.headD_cons] at hmerge
    dsimp only
    rw [run_bind_ok hmerge]
    rfl

/-- INTERNAL: a loop that returns is a cascade, by induction on its rounds.
SOURCE: compaction.rs:52-83 -/
theorem compactLoop_cascade {fuel : ℕ} {newLevels : List Sst.PartitionedLevel}
    (h : (Sst.CompactionBt.compactLoop merge fuel levels chosen target number newLevels).run bt =
      .ok res bt') :
    ∃ tail, res = newLevels ++ tail ∧ Cascade merge levels chosen target number bt tail bt' := by
  induction fuel generalizing levels chosen target number bt newLevels with
  | zero => cases h
  | succ fuel ih =>
    rw [Sst.CompactionBt.compactLoop] at h
    obtain ⟨⟨newLevel, target'⟩, mid, hround, h₁⟩ := run_bind_eq_ok h
    obtain ⟨number', mid₁, hadd, h₂⟩ := run_bind_eq_ok h₁
    obtain ⟨hsum, rfl⟩ := run_liftExec_eq_ok hadd
    obtain ⟨exceeded, mid₂, hover, h₃⟩ := run_bind_eq_ok h₂
    obtain ⟨hexceeds, rfl⟩ := run_liftExec_eq_ok hover
    cases exceeded with
    | false =>
      cases h₃
      exact ⟨newLevel :: levels.tail, by rw [List.append_assoc]; rfl,
        .last hround (checkedAdd_eq_ok hsum).2 hexceeds⟩
    | true =>
      obtain ⟨chosen', mid₃, hselect, h₄⟩ := run_bind_eq_ok h₃
      obtain ⟨hselected, rfl⟩ := run_liftExec_eq_ok hselect
      obtain ⟨tail, hres, hrest⟩ := ih h₄
      rw [← (checkedAdd_eq_ok hsum).1] at hrest
      refine ⟨newLevel :: tail, ?_,
        .next hround (checkedAdd_eq_ok hsum).2 hexceeds hselected hrest⟩
      rw [hres, List.append_assoc]
      rfl

/-- INTERNAL: a cascade is what the loop does, by induction on its rounds.
SOURCE: compaction.rs:52-83 -/
theorem cascade_returns (h : Cascade merge levels chosen target number bt res bt')
    (newLevels : List Sst.PartitionedLevel) : ∃ fuel,
      (Sst.CompactionBt.compactLoop merge fuel levels chosen target number newLevels).run bt =
        .ok (newLevels ++ res) bt' := by
  induction h generalizing newLevels with
  | last round counted within =>
    refine ⟨1, ?_⟩
    rw [Sst.CompactionBt.compactLoop, run_bind_ok round]
    dsimp only
    rw [checkedAdd_ok counted, run_bind_ok (run_liftExec_ok ..), within,
      run_bind_ok (run_liftExec_ok ..), if_neg Bool.false_ne_true]
    exact congrArg (EStateM.Result.ok · _) (List.append_cons ..).symm
  | next round counted exceeds selected rest ih =>
    rename_i newLevel _
    obtain ⟨fuel, hrest⟩ := ih (newLevels ++ [newLevel])
    refine ⟨fuel + 1, ?_⟩
    rw [Sst.CompactionBt.compactLoop, run_bind_ok round]
    dsimp only
    rw [checkedAdd_ok counted, run_bind_ok (run_liftExec_ok ..), exceeds,
      run_bind_ok (run_liftExec_ok ..), if_pos rfl, selected, run_bind_ok (run_liftExec_ok ..),
      hrest, ← List.append_cons]

/-- INTERNAL: a compaction from level zero that returns is a cascade.
SOURCE: compaction.rs:36-84 -/
theorem compactFromLevelZero_cascade {fuel : ℕ}
    (h : (Sst.CompactionBt.compactFromLevelZero merge fuel).run bt = .ok res bt') :
    ∃ chosen, bt.container.levelZero.segmentsToMerge = .ok chosen ∧
      Cascade merge bt.container.partitionedLevels chosen bt.container.levelZero.targetSize 1 bt res
        bt' := by
  unfold Sst.CompactionBt.compactFromLevelZero at h
  rw [run_bind_ok (EStateM.run_get bt), run_bind_ok (EStateM.run_get bt)] at h
  obtain ⟨chosen, mid, hselect, hloop⟩ := run_bind_eq_ok h
  obtain ⟨hselected, rfl⟩ := run_liftExec_eq_ok hselect
  obtain ⟨tail, hres, hcascade⟩ := compactLoop_cascade hloop
  rw [List.nil_append] at hres
  rw [hres]
  exact ⟨chosen, hselected, hcascade⟩

/-- INTERNAL: a cascade is what a compaction from level zero does.
SOURCE: compaction.rs:36-84 -/
theorem compactFromLevelZero_returns
    (hchosen : bt.container.levelZero.segmentsToMerge = .ok chosen)
    (h : Cascade merge bt.container.partitionedLevels chosen bt.container.levelZero.targetSize 1 bt
      res bt') :
    ∃ fuel, (Sst.CompactionBt.compactFromLevelZero merge fuel).run bt = .ok res bt' := by
  obtain ⟨fuel, hloop⟩ := cascade_returns h []
  refine ⟨fuel, ?_⟩
  unfold Sst.CompactionBt.compactFromLevelZero
  rw [run_bind_ok (EStateM.run_get bt), run_bind_ok (EStateM.run_get bt), hchosen,
    run_bind_ok (run_liftExec_ok ..), hloop, List.nil_append]

/-- INTERNAL: a cascade leaves a level. -/
theorem cascade_res_pos (h : Cascade merge levels chosen target number bt res bt') :
    0 < res.length := by
  cases h <;> exact Nat.succ_pos _

/-- INTERNAL: what gets through all levels goes on in a new one. -/
theorem cascade_of_passes {chosen₁ : List Sst.Segment} {target₁ number₁ : ℕ}
    {mid : Sst.CompactionBt}
    (hpasses : Passes merge levels chosen target number bt chosen₁ target₁ number₁ mid)
    (h : Cascade merge levels chosen target number bt res bt') :
    number₁ = number + levels.length ∧ ∃ front tail, res = front ++ tail ∧
      front.length = levels.length ∧ Cascade merge [] chosen₁ target₁ number₁ mid tail bt' := by
  induction hpasses generalizing res with
  | done => exact ⟨rfl, [], res, rfl, rfl, h⟩
  | next round counted exceeds selected rest ih =>
    cases h with
    | last round₂ _ within =>
      cases round.symm.trans round₂
      cases exceeds.symm.trans within
    | next round₂ _ _ selected₂ rest₂ =>
      cases round.symm.trans round₂
      cases selected.symm.trans selected₂
      obtain ⟨hnumber, front, tail, rfl, hlength, htail⟩ := ih rest₂
      refine ⟨by rw [hnumber, List.length_cons]; omega, _ :: front, tail, rfl, ?_, htail⟩
      rw [List.length_cons, List.length_cons, hlength]

/-- INTERNAL: a cascade ends in one of the levels or gets through all of them. -/
theorem cascade_passes (h : Cascade merge levels chosen target number bt res bt') :
    res.length = levels.length ∨ ∃ chosen₁ target₁ number₁ mid,
      Passes merge levels chosen target number bt chosen₁ target₁ number₁ mid := by
  induction h with
  | @last levels chosen target number bt bt' newLevel target' round counted within =>
    cases levels with
    | nil => exact Or.inr ⟨_, _, _, _, .done⟩
    | cons level levels => exact Or.inl rfl
  | @next levels res chosen chosen' target number bt mid bt' newLevel target' round counted exceeds
      selected rest ih =>
    cases levels with
    | nil => exact Or.inr ⟨_, _, _, _, .done⟩
    | cons level levels =>
      obtain hlength | ⟨chosen₁, target₁, number₁, mid₁, hpasses⟩ := ih
      · exact Or.inl (congrArg Nat.succ hlength)
      · exact Or.inr ⟨_, _, _, _, .next round counted exceeds selected hpasses⟩

/-- INTERNAL: a cascade adds to the segments to delete. -/
theorem cascade_appends (h : Cascade merge levels chosen target number bt res bt') :
    ∃ appended, bt'.segmentsToDelete = bt.segmentsToDelete ++ appended := by
  induction h with
  | last round _ within =>
    obtain ⟨deleted, dir, -, rfl, -⟩ := compactRound_eq_ok round
    exact ⟨deleted, rfl⟩
  | next round _ exceeds selected rest ih =>
    obtain ⟨deleted, dir, -, rfl, -⟩ := compactRound_eq_ok round
    obtain ⟨appended, happended⟩ := ih
    exact ⟨deleted ++ appended, by rw [happended, List.append_assoc]⟩

/-- INTERNAL: a level over its target has something to merge. -/
theorem selected_ne_nil {level : Sst.PartitionedLevel}
    (hexceeds : level.exceedsTargetSize = .ok true)
    (hselected : level.segmentsToMerge = .ok chosen) : chosen ≠ [] := by
  intro hnil
  have hle := (selectForMerge_eq_nil_iff hselected).mp hnil
  obtain ⟨size, hsize, hover⟩ := exec_bind_eq_ok.mp hexceeds
  cases hsize.symm.trans (totalSize_ok (selectForMerge_size hselected))
  exact absurd (of_decide_eq_true (Except.ok.inj hover)) (Nat.not_lt.mpr hle)

end

/-! ## Segments that were merged down -/

section
variable {orders : Sst.PartitionedLevel → List Sst.Segment → ℕ → Sst.IterationOrder}
  {limit fuel : ℕ} {bt bt' : Sst.CompactionBt} {res : List Sst.PartitionedLevel}

/-- INTERNAL: the segments that a cascade begins with are among those to delete. -/
theorem cascade_merges {levels : List Sst.PartitionedLevel} {chosen : List Sst.Segment}
    {target number : ℕ}
    (h : Cascade (Sst.mergeLevels orders limit) levels chosen target number bt res bt') :
    ∃ appended, bt'.segmentsToDelete = bt.segmentsToDelete ++ appended ∧
      ∀ s ∈ chosen, s ∈ appended := by
  have hincluded : ∀ {level newLevel deleted d d'},
      (Sst.mergeLevels orders limit level chosen).run d = .ok (newLevel, deleted) d' →
        ∀ s ∈ chosen, s ∈ deleted := by
    intro level newLevel deleted d d' hrun s hs
    obtain ⟨written, hmerged⟩ := mergeLevels_eq_ok hrun
    rw [hmerged.deleted]
    exact List.mem_append_right _ hs
  cases h with
  | last round _ within =>
    obtain ⟨deleted, dir, hrun, rfl, -⟩ := compactRound_eq_ok round
    exact ⟨deleted, rfl, hincluded hrun⟩
  | next round _ exceeds selected rest =>
    obtain ⟨deleted, dir, hrun, rfl, -⟩ := compactRound_eq_ok round
    obtain ⟨appended, happended⟩ := cascade_appends rest
    refine ⟨deleted ++ appended, by rw [happended, List.append_assoc], fun s hs => ?_⟩
    exact List.mem_append_left _ (hincluded hrun s hs)

/-- INTERNAL: after one merge no segment that was merged is in a level. -/
theorem merged_leave {level newLevel : Sst.PartitionedLevel} {chosen deleted written : List Sst.Segment}
    {d d' : Dir} (h : LevelMerged level chosen d newLevel deleted written d')
    (hpositive : 0 < level.levelNumber)
    (hlevel : ∀ s ∈ level.segments, s.levelNumber = level.levelNumber)
    (hchosen : ∀ s ∈ chosen, s.levelNumber = 0) {s : Sst.Segment} (hs : s ∈ deleted) :
    s.levelNumber ≤ level.levelNumber ∧ s ∉ newLevel.segments := by
  rw [h.deleted, List.mem_append, mem_touchedBy] at hs
  rw [h.segments.mem_iff, List.mem_append, mem_untouchedBy]
  obtain ⟨hmem, t, ht, hoverlaps⟩ | hs := hs
  · refine ⟨(hlevel s hmem).le, ?_⟩
    rintro (hnew | ⟨-, huntouched⟩)
    · exact absurd (h.numbered.above s hnew) (Nat.not_lt.mpr (le_highestNumber hmem))
    · exact huntouched t ht hoverlaps
  · refine ⟨(hchosen s hs).le.trans hpositive.le, ?_⟩
    have hzero := hchosen s hs
    rintro (hnew | ⟨hold, -⟩)
    · rw [h.numbered.level s hnew] at hzero
      exact absurd hzero hpositive.ne'
    · rw [hlevel s hold] at hzero
      exact absurd hzero hpositive.ne'

/-- INTERNAL: the numbers of the first level. -/
theorem firstLevel_numbered (h : NumberedLevels bt.container) :
    0 < (firstLevel bt).levelNumber ∧
      (∀ s ∈ (firstLevel bt).segments, s.levelNumber = (firstLevel bt).levelNumber) ∧
      ∀ level ∈ bt.container.partitionedLevels.tail,
        (firstLevel bt).levelNumber < level.levelNumber := by
  unfold firstLevel
  obtain ⟨-, -, positive, levels, ascending⟩ := h
  cases hlevels : bt.container.partitionedLevels with
  | nil =>
    exact ⟨Nat.one_pos, fun s hs => absurd hs List.not_mem_nil,
      fun level hlevel => absurd hlevel List.not_mem_nil⟩
  | cons level rest =>
    rw [hlevels] at positive levels ascending
    exact ⟨positive level (List.mem_cons_self ..), levels level (List.mem_cons_self ..),
      (List.pairwise_cons.mp ascending).1⟩

/-- No segment that a compaction has merged is in a level that it returns if and only if its first
merge leaves the level within its target.
SOURCE: compaction.rs:36-84 -/
theorem merged_segments_leave_iff (hnumbered : NumberedLevels bt.container)
    (h : (Sst.CompactionBt.compactFromLevelZero (Sst.mergeLevels orders limit) fuel).run bt =
      .ok res bt') :
    ∃ appended, bt'.segmentsToDelete = bt.segmentsToDelete ++ appended ∧
      ((∀ s ∈ appended, ∀ level ∈ res, s ∉ level.segments) ↔
        FirstMergeFits (Sst.mergeLevels orders limit) bt) := by
  obtain ⟨chosen, hchosen, hcascade⟩ := compactFromLevelZero_cascade h
  obtain ⟨hpositive, hlevel, htail⟩ := firstLevel_numbered hnumbered
  cases hcascade with
  | last round _ within =>
    obtain ⟨deleted, dir, hrun, rfl, -⟩ := compactRound_eq_ok round
    obtain ⟨written, hmerged⟩ := mergeLevels_eq_ok hrun
    refine ⟨deleted, rfl, iff_of_true (fun s hs level hmem hin => ?_) ?_⟩
    · have hzero : ∀ s ∈ chosen, s.levelNumber = 0 := fun s hs =>
        hnumbered.levelZero s (selectForMerge_subset hchosen s hs)
      obtain ⟨hle, hnot⟩ := merged_leave hmerged hpositive hlevel hzero hs
      obtain rfl | hmem := List.mem_cons.mp hmem
      · exact hnot hin
      · have hnumber := hnumbered.levels level (List.mem_of_mem_tail hmem) s hin
        rw [hnumber] at hle
        exact absurd hle (Nat.not_le.mpr (htail level hmem))
    · intro chosen' newLevel' deleted' dir' hchosen' hrun'
      rw [hchosen] at hchosen'
      cases hchosen'
      rw [firstLevel, hrun] at hrun'
      cases hrun'
      exact within
  | next round _ exceeds selected rest =>
    obtain ⟨deleted, dir, hrun, rfl, -⟩ := compactRound_eq_ok round
    obtain ⟨appended, happended, hincluded⟩ := cascade_merges rest
    refine ⟨deleted ++ appended, by rw [happended, List.append_assoc], iff_of_false ?_ ?_⟩
    · intro hleave
      obtain ⟨s, hs⟩ := List.exists_mem_of_ne_nil _ (selected_ne_nil exceeds selected)
      exact hleave s (List.mem_append_right _ (hincluded s hs)) _ (List.mem_cons_self ..)
        (selectForMerge_subset selected s hs)
    · intro hfits
      rw [hfits chosen _ deleted dir hchosen hrun] at exceeds
      cases exceeds

/-- INTERNAL: a merge returns where its writing does and its level comes in the order of its keys.
SOURCE: level.rs:441-477 -/
theorem mergeLevels_run {level : Sst.PartitionedLevel} {incoming touched out : List Sst.Segment}
    {d d' : Dir} (htouched : touchedBy level incoming = touched)
    (hwrite : (Sst.mergeAndWrite (orders level (touched ++ incoming)) limit level
      (touched ++ incoming)).run d = .ok out d')
    (hsorted : (out ++ untouchedBy level incoming).Pairwise fun s t => s.firstKey ≤ t.firstKey) :
    (Sst.mergeLevels orders limit level incoming).run d =
      .ok ({ level with segments := out ++ untouchedBy level incoming }, touched ++ incoming) d' := by
  subst htouched
  have hsame : (out ++ untouchedBy level incoming).mergeSort
      (fun s t => decide (s.firstKey ≤ t.firstKey)) = out ++ untouchedBy level incoming :=
    List.mergeSort_of_pairwise (hsorted.imp decide_eq_true)
  unfold Sst.mergeLevels Sst.PartitionedLevel.merge
  refine (run_bind_ok hwrite).trans ?_
  exact congrArg (fun segments => EStateM.Result.ok
    ({ level with segments := segments }, touchedBy level incoming ++ incoming) d') hsame

end

/-! ## A cascade of two merges -/

/-- INTERNAL: the directory of some segment files. -/
def dirHolding (segments : List Sst.Segment) (h : (segments.map Sst.Segment.filepath).Nodup) :
    Dir where
  files := segments.map fun s => (s.filepath, s.file)
  distinct := by
    rw [List.map_map]
    exact h
  faults := []

/-- INTERNAL: what a run returns. -/
def resultOf {α : Type} (x : EStateM Fault Dir α) (d : Dir) : Option α :=
  match x.run d with
  | .ok a _ => some a
  | .error _ _ => none

/-- INTERNAL: the directory after a run. -/
def dirAfter {α : Type} (x : EStateM Fault Dir α) (d : Dir) : Dir :=
  match x.run d with
  | .ok _ d => d
  | .error _ d => d

/-- INTERNAL: a computed result is the result of the run. -/
theorem run_of_result {α : Type} {x : EStateM Fault Dir α} {d : Dir} {a : α}
    (h : resultOf x d = some a) : x.run d = .ok a (dirAfter x d) := by
  unfold resultOf at h
  unfold dirAfter
  cases hrun : x.run d with
  | ok b d' =>
    rw [hrun] at h
    cases h
    rfl
  | error e d' =>
    rw [hrun] at h
    cases h

/-- INTERNAL: maps are iterated over from their fronts in every merge. -/
def frontOrders : Sst.PartitionedLevel → List Sst.Segment → ℕ → Sst.IterationOrder :=
  fun _ _ _ => frontFirst

/-- INTERNAL: a segment on level zero. -/
def smallZero : Sst.Segment :=
  segmentHolding "0000000000000001.sst" 0 1 [⟨"a", some "v", 2⟩]

/-- INTERNAL: a segment on level one. -/
def smallOne : Sst.Segment := segmentHolding "0000000100000001.sst" 1 1 [⟨"b", some "v", 1⟩]

/-- INTERNAL: their files. -/
def smallFiles : Dir := dirHolding [smallZero, smallOne] (by decide)

/-- INTERNAL: level zero is over its target of 20 bytes, and level one, whose target is `target`,
holds one segment. -/
def smallLevels (target : ℕ) : Sst.CompactionBt :=
  ⟨⟨⟨[smallZero], 20⟩, [⟨[smallOne], target, 1, 1⟩]⟩, [], 3, smallFiles⟩

/-- INTERNAL: their levels are numbered. -/
theorem smallLevels_numbered (target : ℕ) : NumberedLevels (smallLevels target).container where
  levelZero := by
    rintro s hs
    rw [List.mem_singleton.mp hs]
    rfl
  distinct := List.nodup_singleton _
  positive := by
    rintro level hlevel
    rw [List.mem_singleton.mp hlevel]
    exact Nat.one_pos
  levels := by
    rintro level hlevel s hs
    cases List.mem_singleton.mp hlevel
    cases List.mem_singleton.mp hs
    rfl
  ascending := List.pairwise_singleton ..

/-- INTERNAL: the segment of level zero in level one. -/
def smallMerged : Sst.Segment :=
  ⟨segmentBytes [⟨"a", some "v", 2⟩] [⟨"a", 0⟩], "0000000100000002.sst", ⟨[⟨"a", 0⟩], 13⟩, 2, 52, 23,
    1, 2, "a", "a"⟩

/-- INTERNAL: both segments in level two. -/
def smallBoth : Sst.Segment :=
  ⟨segmentBytes [⟨"a", some "v", 2⟩, ⟨"b", some "v", 1⟩] [⟨"a", 0⟩, ⟨"b", 23⟩],
    "0000000200000001.sst", ⟨[⟨"a", 0⟩, ⟨"b", 23⟩], 26⟩, 1, 92, 46, 2, 1, "a", "b"⟩

/-- INTERNAL: the files after the merge into level one. -/
def filesAfterFirst (target : ℕ) : Dir :=
  dirAfter (Sst.mergeAndWrite (fun _ => frontFirst) 9 ⟨[smallOne], target, 1, 1⟩ [smallZero])
    smallFiles

/-- INTERNAL: the files after the merge into level two. -/
def filesAfterSecond : Dir :=
  dirAfter (Sst.mergeAndWrite (fun _ => frontFirst) 9 (.new 180 2) [smallMerged, smallOne])
    (filesAfterFirst 60)

/-- INTERNAL: the merge into level one. -/
theorem small_first_merge {target : ℕ}
    (h : resultOf (Sst.mergeAndWrite (fun _ => frontFirst) 9 ⟨[smallOne], target, 1, 1⟩ [smallZero])
      smallFiles = some [smallMerged]) :
    (Sst.mergeLevels frontOrders 9 ⟨[smallOne], target, 1, 1⟩ [smallZero]).run smallFiles =
      .ok (⟨[smallMerged, smallOne], target, 1, 1⟩, [smallZero]) (filesAfterFirst target) := by
  have huntouched : untouchedBy ⟨[smallOne], target, 1, 1⟩ [smallZero] = [smallOne] := rfl
  have hsorted : ([smallMerged] ++ untouchedBy ⟨[smallOne], target, 1, 1⟩ [smallZero]).Pairwise
      fun s t => s.firstKey ≤ t.firstKey := by
    rw [huntouched]
    decide
  exact @mergeLevels_run frontOrders 9 ⟨[smallOne], target, 1, 1⟩ [smallZero] [] [smallMerged] _ _ rfl
    (run_of_result h) hsorted

/-- INTERNAL: the merge into level two. -/
theorem small_second_merge :
    (Sst.mergeLevels frontOrders 9 (.new 180 2) [smallMerged, smallOne]).run (filesAfterFirst 60) =
      .ok (⟨[smallBoth], 180, 1, 2⟩, [smallMerged, smallOne]) filesAfterSecond :=
  @mergeLevels_run frontOrders 9 (.new 180 2) [smallMerged, smallOne] [] [smallBoth] _ _ rfl
    (run_of_result (by decide +kernel)) (by decide)

/-- INTERNAL: level one has room for both segments. -/
theorem small_compaction_fits : ∃ fuel res bt',
    (Sst.CompactionBt.compactFromLevelZero (Sst.mergeLevels frontOrders 9) fuel).run
      (smallLevels 100) = .ok res bt' := by
  have hround := @compactRound_run (Sst.mergeLevels frontOrders 9) [⟨[smallOne], 100, 1, 1⟩]
    [smallZero] 20 1 (smallLevels 100) _ _ _ (fun h => absurd h (List.cons_ne_nil _ _))
    (small_first_merge (by decide))
  obtain ⟨fuel, hrun⟩ := @compactFromLevelZero_returns _ _ [smallZero] (smallLevels 100) _
    (by decide) (.last hround (by decide) (by decide))
  exact ⟨fuel, _, _, hrun⟩

/-- Two small segments, for which a cascade ends on level one. -/
theorem merged_segments_leave_small : ∃ fuel res bt',
    (Sst.CompactionBt.compactFromLevelZero (Sst.mergeLevels frontOrders 9) fuel).run
      (smallLevels 100) = .ok res bt' ∧
    ∃ appended, bt'.segmentsToDelete = [] ++ appended ∧
      ((∀ s ∈ appended, ∀ level ∈ res, s ∉ level.segments) ↔
        FirstMergeFits (Sst.mergeLevels frontOrders 9) (smallLevels 100)) := by
  obtain ⟨fuel, res, bt', hrun⟩ := small_compaction_fits
  exact ⟨fuel, res, bt', hrun, merged_segments_leave_iff (smallLevels_numbered 100) hrun⟩

/-- Level one gets over its target of 60 bytes, and both its segments are merged into level two.
SOURCE: compaction.rs:57-60, 77-80 -/
theorem merged_segment_stays :
    ¬∀ (orders : Sst.PartitionedLevel → List Sst.Segment → ℕ → Sst.IterationOrder)
      (limit fuel : ℕ) (bt bt' : Sst.CompactionBt) (res : List Sst.PartitionedLevel),
      NumberedLevels bt.container →
      (Sst.CompactionBt.compactFromLevelZero (Sst.mergeLevels orders limit) fuel).run bt =
        .ok res bt' →
      ∃ appended, bt'.segmentsToDelete = bt.segmentsToDelete ++ appended ∧
        ∀ s ∈ appended, ∀ level ∈ res, s ∉ level.segments := by
  intro hall
  have hfirst := @compactRound_run (Sst.mergeLevels frontOrders 9) [⟨[smallOne], 60, 1, 1⟩]
    [smallZero] 20 1 (smallLevels 60) _ _ _ (fun h => absurd h (List.cons_ne_nil _ _))
    (small_first_merge (by decide))
  have hsecond := @compactRound_run (Sst.mergeLevels frontOrders 9) [] [smallMerged, smallOne] 60 2
    { smallLevels 60 with dir := filesAfterFirst 60, segmentsToDelete := [smallZero] } _ _ _
    (fun _ => by decide) small_second_merge
  obtain ⟨fuel, hrun⟩ := @compactFromLevelZero_returns _ _ [smallZero] (smallLevels 60) _
    (by decide) (.next hfirst (by decide) (by decide) (by decide)
      (.last hsecond (by decide) (by decide)))
  obtain ⟨appended, happended, hleave⟩ := hall _ _ _ _ _ _ (smallLevels_numbered 60) hrun
  have hmem : smallMerged ∈ [] ++ appended := by
    rw [← show _ = [] ++ appended from happended]
    decide
  exact hleave smallMerged hmem _ (List.mem_cons_self ..) (List.mem_cons_self ..)

end Rkvs.Analysis

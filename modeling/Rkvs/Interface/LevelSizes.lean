import Rkvs.Interface.Cascade
import Rkvs.Library.Run
import Rkvs.Model.SstRecovery

/-!
# The target sizes of levels

Compactions and restarts create levels. Level `n` is to have the target size of level zero times
the factor to the power `n`. What the merges write does not matter for it.
-/

set_option autoImplicit false

namespace Rkvs.Interface

open Rkvs.Library Rkvs.Model

/-- What `merge_and_write` does. -/
abbrev MergeWrites :=
  Sst.PartitionedLevel → List Sst.Segment → EStateM Fault Dir (List Sst.Segment)

/-- Every partitioned level has the target size of its number. -/
def SizesAgree (levelZeroTargetSize levelSizeFactor : ℕ) (c : Sst.LevelContainer) : Prop :=
  ∀ level ∈ c.partitionedLevels,
    level.targetSize = levelZeroTargetSize * levelSizeFactor ^ level.levelNumber

/-- What changes the container, or only the files. -/
inductive SizeAction
  | flush
  | files
  | notified (writes : MergeWrites) (fuel : ℕ) (referenced : Sst.Segment → Bool)
  | timedOut (writes : MergeWrites) (fuel : ℕ) (referenced : Sst.Segment → Bool)
  | restart (indexSparsityFactor : ℕ) (writes : MergeWrites) (fuel : ℕ)

/-- Flushes, compactions that return, and restarts. Other steps, such as compactions that fail,
leave the container as it is.
SOURCE: compaction.rs:196-243; level.rs:81-222, 248-267 -/
inductive SizeStep (levelZeroTargetSize levelSizeFactor : ℕ) :
    Sst.CompactionBt → SizeAction → Sst.CompactionBt → Prop
  | flush {bt : Sst.CompactionBt} {dir : Dir} {path : String} {c : Sst.LevelContainer}
      (added : bt.container.addToLevelZero dir path = .ok c) :
      SizeStep levelZeroTargetSize levelSizeFactor bt .flush { bt with container := c, dir := dir }
  | files {bt : Sst.CompactionBt} (segmentsToDelete : List Sst.Segment) (dir : Dir) :
      SizeStep levelZeroTargetSize levelSizeFactor bt .files
        { bt with segmentsToDelete := segmentsToDelete, dir := dir }
  | notified {bt bt' : Sst.CompactionBt} {writes : MergeWrites} {fuel : ℕ}
      {referenced : Sst.Segment → Bool}
      (returned : (Sst.CompactionBt.notified (Sst.PartitionedLevel.merge writes) fuel
        referenced).run bt = .ok () bt') :
      SizeStep levelZeroTargetSize levelSizeFactor bt (.notified writes fuel referenced) bt'
  | timedOut {bt bt' : Sst.CompactionBt} {writes : MergeWrites} {fuel : ℕ}
      {referenced : Sst.Segment → Bool}
      (returned : (Sst.CompactionBt.timedOut (Sst.PartitionedLevel.merge writes) fuel
        referenced).run bt = .ok () bt') :
      SizeStep levelZeroTargetSize levelSizeFactor bt (.timedOut writes fuel referenced) bt'
  | restart {bt : Sst.CompactionBt} {indexSparsityFactor : ℕ} {writes : MergeWrites} {fuel : ℕ}
      {c : Sst.LevelContainer} {dir : Dir}
      (returned : (Sst.LevelContainer.fromDir levelZeroTargetSize levelSizeFactor
        indexSparsityFactor (Sst.PartitionedLevel.merge writes) fuel).run bt.dir = .ok c dir) :
      SizeStep levelZeroTargetSize levelSizeFactor bt (.restart indexSparsityFactor writes fuel)
        ⟨c, [], levelSizeFactor, dir⟩

/-- The first start, in a directory. -/
def firstStart (levelZeroTargetSize levelSizeFactor : ℕ) (dir : Dir) : Sst.CompactionBt :=
  ⟨.new levelZeroTargetSize, [], levelSizeFactor, dir⟩

/-- If a compaction gets through all `levels`, then the number of the new level is the next one
after theirs, and the new level is within its target. -/
def OneOnTop (merge : Sst.Merge) (levels : List Sst.PartitionedLevel) (chosen : List Sst.Segment)
    (target number : ℕ) (bt : Sst.CompactionBt) : Prop :=
  ∀ chosen₁ target₁ number₁ mid,
    Passes merge levels chosen target number bt chosen₁ target₁ number₁ mid →
    (∀ last ∈ levels.getLast?, last.levelNumber + 1 = number₁) ∧
      ∀ newLevel target' bt', (Sst.CompactionBt.compactRound merge [] chosen₁ target₁ number₁).run
        mid = .ok (newLevel, target') bt' → newLevel.exceedsTargetSize = .ok false

/-- The target that a restart computes for the number is the planned one. -/
def AgreedNumber (levelSizeFactor n : ℕ) : Prop := n = 1 ∨ n = 2 ∧ levelSizeFactor = 2

section
variable (levelZeroTargetSize levelSizeFactor : ℕ) (merge : Sst.Merge)

/-- The rounds of a restart that adds levels.
SOURCE: level.rs:205-217 -/
inductive Adds : List Sst.PartitionedLevel → List Sst.Segment → Dir →
    List Sst.PartitionedLevel → List Sst.Segment → Dir → Prop
  | done {recovered : List Sst.PartitionedLevel} {selected : List Sst.Segment} {dir : Dir} :
      Adds recovered selected dir recovered selected dir
  | next {recovered recovered₁ : List Sst.PartitionedLevel}
      {selected selected' selected₁ : List Sst.Segment} {dir mid dir₁ : Dir} {targetSize : ℕ}
      {newLevel : Sst.PartitionedLevel} (asked : selected ≠ [])
      (target : Sst.LevelContainer.levelTargetSize levelZeroTargetSize levelSizeFactor
        (recovered.length + 1) = .ok targetSize)
      (merged : (Sst.LevelContainer.mergeAndRemove merge
        (.new targetSize (recovered.length + 1)) selected).run dir = .ok newLevel mid)
      (selects : newLevel.segmentsToMerge = .ok selected')
      (rest : Adds (recovered ++ [newLevel]) selected' mid recovered₁ selected₁ dir₁) :
      Adds recovered selected dir recovered₁ selected₁ dir₁

/-- A restart finds files and adds levels of agreed numbers only. -/
def RestartAgrees (indexSparsityFactor : ℕ) (dir : Dir) : Prop :=
  ∀ opened d, (Sst.LevelContainer.openSegments dir.names).run dir = .ok opened d →
    (∀ s ∈ opened, s.levelNumber = 0 ∨ AgreedNumber levelSizeFactor s.levelNumber) ∧
    ∀ zero levels chosen recovered selected mid,
      Sst.LevelContainer.groupLoop levelZeroTargetSize levelSizeFactor indexSparsityFactor
        (opened.mergeSort fun s t => s.levelNumber ≤ t.levelNumber) [] [] [] = .ok (zero, levels) →
      Sst.selectForMerge (zero.mergeSort fun s t => s.number ≤ t.number) levelZeroTargetSize =
        .ok chosen →
      (Sst.LevelContainer.recoverLevels merge levels chosen []).run d =
        .ok (recovered, selected) mid →
      ∀ recovered₁ selected₁ mid₁, Adds levelZeroTargetSize levelSizeFactor merge recovered
        selected mid recovered₁ selected₁ mid₁ → selected₁ ≠ [] →
          AgreedNumber levelSizeFactor (recovered₁.length + 1)

end

/-- A step creates levels of the sizes that are planned: a compaction creates at most one level,
with the next number, and a restart has no level above level one, unless level two with the
factor two. -/
def CreatesAsPlanned (levelZeroTargetSize levelSizeFactor : ℕ) :
    Sst.CompactionBt × SizeAction → Prop
  | (_, .flush) => True
  | (_, .files) => True
  | (bt, .notified writes _ _) => ∀ chosen,
      bt.container.levelZero.segmentsToMerge = .ok chosen →
      OneOnTop (Sst.PartitionedLevel.merge writes) bt.container.partitionedLevels chosen
        bt.container.levelZero.targetSize 1 bt
  | (bt, .timedOut writes _ referenced) => ∀ bt₁ front first behind chosen,
      (Sst.CompactionBt.removeSegmentFiles referenced).run bt = .ok () bt₁ →
      Sst.CompactionBt.findPartitionedLevelsToCompact bt.container.partitionedLevels =
        .ok (front, first :: behind) →
      first.segmentsToMerge = .ok chosen →
      OneOnTop (Sst.PartitionedLevel.merge writes) behind chosen first.targetSize
        (first.levelNumber + 1) bt₁
  | (bt, .restart indexSparsityFactor writes _) =>
      RestartAgrees levelZeroTargetSize levelSizeFactor (Sst.PartitionedLevel.merge writes)
        indexSparsityFactor bt.dir

end Rkvs.Interface

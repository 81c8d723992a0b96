import Rkvs.Model.SstCompaction

/-!
# The cascade of a compaction

A compaction merges segments into a level and goes on with the segments that are too many there,
until a level is within its target.
-/

set_option autoImplicit false

namespace Rkvs.Interface

open Rkvs.Model

/-- A compaction that merges `chosen` into the first of the `levels`, or into a new one with
`number` whose target comes from `target`, and so on. It leaves `res`. -/
inductive Cascade (merge : Sst.Merge) : List Sst.PartitionedLevel → List Sst.Segment → ℕ → ℕ →
    Sst.CompactionBt → List Sst.PartitionedLevel → Sst.CompactionBt → Prop
  | last {levels : List Sst.PartitionedLevel} {chosen : List Sst.Segment} {target number : ℕ}
      {bt bt' : Sst.CompactionBt} {newLevel : Sst.PartitionedLevel} {target' : ℕ}
      (round : (Sst.CompactionBt.compactRound merge levels chosen target number).run bt =
        .ok (newLevel, target') bt')
      (counted : number + 1 < 2 ^ 64)
      (within : newLevel.exceedsTargetSize = .ok false) :
      Cascade merge levels chosen target number bt (newLevel :: levels.tail) bt'
  | next {levels res : List Sst.PartitionedLevel} {chosen chosen' : List Sst.Segment}
      {target number : ℕ} {bt mid bt' : Sst.CompactionBt} {newLevel : Sst.PartitionedLevel}
      {target' : ℕ}
      (round : (Sst.CompactionBt.compactRound merge levels chosen target number).run bt =
        .ok (newLevel, target') mid)
      (counted : number + 1 < 2 ^ 64)
      (exceeds : newLevel.exceedsTargetSize = .ok true)
      (selected : newLevel.segmentsToMerge = .ok chosen')
      (rest : Cascade merge levels.tail chosen' target' (number + 1) mid res bt') :
      Cascade merge levels chosen target number bt (newLevel :: res) bt'

/-- The rounds of a compaction through all `levels`. It comes with `chosen'` to a new level. -/
inductive Passes (merge : Sst.Merge) : List Sst.PartitionedLevel → List Sst.Segment → ℕ → ℕ →
    Sst.CompactionBt → List Sst.Segment → ℕ → ℕ → Sst.CompactionBt → Prop
  | done {chosen : List Sst.Segment} {target number : ℕ} {bt : Sst.CompactionBt} :
      Passes merge [] chosen target number bt chosen target number bt
  | next {level newLevel : Sst.PartitionedLevel} {levels : List Sst.PartitionedLevel}
      {chosen chosen' chosen₁ : List Sst.Segment} {target number target' target₁ number₁ : ℕ}
      {bt mid bt₁ : Sst.CompactionBt}
      (round : (Sst.CompactionBt.compactRound merge (level :: levels) chosen target number).run
        bt = .ok (newLevel, target') mid)
      (counted : number + 1 < 2 ^ 64)
      (exceeds : newLevel.exceedsTargetSize = .ok true)
      (selected : newLevel.segmentsToMerge = .ok chosen')
      (rest : Passes merge levels chosen' target' (number + 1) mid chosen₁ target₁ number₁ bt₁) :
      Passes merge (level :: levels) chosen target number bt chosen₁ target₁ number₁ bt₁

/-- The level that a compaction from level zero merges into first. -/
def firstLevel (bt : Sst.CompactionBt) : Sst.PartitionedLevel :=
  bt.container.partitionedLevels.headD
    (Sst.PartitionedLevel.new (bt.container.levelZero.targetSize * bt.levelSizeFactor) 1)

/-- The segments that are selected in level zero are merged into a level that is then within its
target. -/
def FirstMergeFits (merge : Sst.Merge) (bt : Sst.CompactionBt) : Prop :=
  ∀ chosen newLevel deleted dir, bt.container.levelZero.segmentsToMerge = .ok chosen →
    (merge (firstLevel bt) chosen).run bt.dir = .ok (newLevel, deleted) dir →
      newLevel.exceedsTargetSize = .ok false

end Rkvs.Interface

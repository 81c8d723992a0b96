import Rkvs.Model.SstLevel

/-!
# Compaction

`sstable/compaction.rs`: the thread that merges levels in the background. What it does with the
container it does here with nothing else running; a merge is a parameter. Of the references to a
segment only whether there is another one matters.
-/

set_option autoImplicit false

namespace Rkvs.Model.Sst

open Rkvs.Library

/-- SOURCE: compaction.rs:10-16 -/
structure CompactionBt where
  container : LevelContainer
  segmentsToDelete : List Segment
  levelSizeFactor : ℕ
  dir : Dir

/-- What `SsTableLevel::merge` does. -/
abbrev Merge := PartitionedLevel → List Segment → EStateM Fault Dir (PartitionedLevel × List Segment)

namespace CompactionBt

variable (merge : Merge)

abbrev dirPart : StatePart CompactionBt Dir :=
  ⟨CompactionBt.dir, fun bt dir => { bt with dir := dir }⟩

/-- A file operation in the directory. -/
abbrev onDir {α : Type} (x : EStateM Fault Dir α) : EStateM Fault CompactionBt α :=
  onPart dirPart x

/-- `Result::unwrap`. -/
def unwrapped {α : Type} (x : EStateM Fault CompactionBt α) : EStateM Fault CompactionBt α :=
  fun bt =>
    match x.run bt with
    | .ok a bt => .ok a bt
    | .error _ bt => .error .panic bt

/-- INTERNAL: a result that was unwrapped. -/
theorem run_unwrapped_eq_ok {α : Type} {x : EStateM Fault CompactionBt α} {bt bt' : CompactionBt}
    {a : α} : (unwrapped x).run bt = .ok a bt' ↔ x.run bt = .ok a bt' := by
  change (match x.run bt with
    | .ok a bt => EStateM.Result.ok a bt
    | .error _ bt => .error Fault.panic bt) = _ ↔ _
  cases x.run bt with
  | ok b bt₁ => exact Iff.rfl
  | error e bt₁ =>
    constructor
    · intro h
      cases h
    · intro h
      cases h

/-- A merge, after which the segments to delete are noted.
SOURCE: compaction.rs:57-60, 70-73 -/
def mergeInto (level : PartitionedLevel) (segmentsToMerge : List Segment) :
    EStateM Fault CompactionBt PartitionedLevel := do
  let (newPartitionedLevel, segmentsToDelete) ← onDir (merge level segmentsToMerge)
  modify fun bt => { bt with segmentsToDelete := bt.segmentsToDelete ++ segmentsToDelete }
  return newPartitionedLevel

/-- One round of a compaction: a merge into the first of the levels, or into a new one. It also
returns the target size that a new level would next go by.
SOURCE: compaction.rs:53-75, 105-127 -/
def compactRound (partitionedLevels : List PartitionedLevel) (segmentsToMerge : List Segment)
    (previousTargetSize levelNumber : ℕ) : EStateM Fault CompactionBt (PartitionedLevel × ℕ) := do
  match partitionedLevels with
  | level :: _ => do
    let newLevel ← mergeInto merge level segmentsToMerge
    return (newLevel, level.targetSize)
  | [] => do
    let factor := (← get).levelSizeFactor
    let targetSize ← liftExec (checkedMul 64 previousTargetSize factor)
    let newLevel ← mergeInto merge (PartitionedLevel.new targetSize levelNumber) segmentsToMerge
    return (newLevel, previousTargetSize)

/-- The loop of both compactions, over the levels that are left, the segments to merge into the
first of them, the target size and the number for a new level, and the levels that are done. A
loop that takes more than `fuel` rounds has not returned.
SOURCE: compaction.rs:52-83, 104-135 -/
def compactLoop : ℕ → List PartitionedLevel → List Segment → ℕ → ℕ → List PartitionedLevel →
    EStateM Fault CompactionBt (List PartitionedLevel)
  | 0, _, _, _, _, _ => throw .panic
  | fuel + 1, partitionedLevels, segmentsToMerge, previousTargetSize, levelNumber, newLevels => do
    let (newLevel, previousTargetSize) ←
      compactRound merge partitionedLevels segmentsToMerge previousTargetSize levelNumber
    let levelNumber ← liftExec (checkedAdd 64 levelNumber 1)
    if ← liftExec newLevel.exceedsTargetSize then do
      let segmentsToMerge ← liftExec newLevel.segmentsToMerge
      compactLoop fuel partitionedLevels.tail segmentsToMerge previousTargetSize levelNumber
        (newLevels ++ [newLevel])
    else return newLevels ++ [newLevel] ++ partitionedLevels.tail

/-- SOURCE: compaction.rs:36-84 -/
def compactFromLevelZero (fuel : ℕ) : EStateM Fault CompactionBt (List PartitionedLevel) := do
  let levelZero := (← get).container.levelZero
  let partitionedLevels := (← get).container.partitionedLevels
  let segmentsToMerge ← liftExec levelZero.segmentsToMerge
  compactLoop merge fuel partitionedLevels segmentsToMerge levelZero.targetSize 1 []

/-- SOURCE: compaction.rs:90-136 -/
def compactFromPartitionedLevel (fuel : ℕ) (levels : List PartitionedLevel) :
    EStateM Fault CompactionBt (List PartitionedLevel) := do
  match levels with
  | [] => return []
  | first :: levels => do
    let segmentsToMerge ← liftExec first.segmentsToMerge
    let currLevelNo ← liftExec (checkedAdd 64 first.levelNumber 1)
    compactLoop merge fuel levels segmentsToMerge first.targetSize currLevelNo []

/-- SOURCE: compaction.rs:142-168 -/
def findPartitionedLevelsToCompact :
    List PartitionedLevel → Exec (List PartitionedLevel × List PartitionedLevel)
  | [] => .ok ([], [])
  | level :: levels => do
    if ← level.exceedsTargetSize then return ([], level :: levels)
    let (front, toCompact) ← findPartitionedLevelsToCompact levels
    return (level :: front, toCompact)

/-- The segments that nothing else refers to are forgotten, and their files are removed.
SOURCE: compaction.rs:172-194 -/
def removeSegmentFiles (referenced : Segment → Bool) : EStateM Fault CompactionBt Unit := do
  let files := ((← get).segmentsToDelete.filter fun s => !referenced s).map Segment.filepath
  modify fun bt => { bt with segmentsToDelete := bt.segmentsToDelete.filter referenced }
  onDir (files.forM Dir.tryRemove)

/-- What the thread does when it is notified, unless the compaction fails.
SOURCE: compaction.rs:212-224 -/
def notified (fuel : ℕ) (referenced : Segment → Bool) : EStateM Fault CompactionBt Unit := do
  let newLevels ← compactFromLevelZero merge fuel
  modify fun bt => { bt with container := bt.container.swapAllLevels newLevels }
  removeSegmentFiles referenced

/-- What the thread does when it was not notified for some time.
SOURCE: compaction.rs:225-235 -/
def timedOut (fuel : ℕ) (referenced : Segment → Bool) : EStateM Fault CompactionBt Unit := do
  removeSegmentFiles referenced
  let (newPartitionedLevels, levelsToCompact) ←
    liftExec (findPartitionedLevelsToCompact (← get).container.partitionedLevels)
  let newLevels ← unwrapped (compactFromPartitionedLevel merge fuel levelsToCompact)
  modify fun bt => { bt with
    container := bt.container.swapPartitionedLevels (newPartitionedLevels ++ newLevels) }

end CompactionBt

end Rkvs.Model.Sst

import Rkvs.Model.SstCompaction

/-!
# Recovery of the SSTable

`LevelContainer::from_dir`: the levels are put together from the segment files of a directory, and
merges that a level over its target asks for are made. The steps for a merge that was interrupted
are not implemented in the source: they panic.
-/

set_option autoImplicit false

namespace Rkvs.Model.Sst.LevelContainer

open Rkvs.Library

/-- The segments of the files. Files that are corrupted are removed.
SOURCE: level.rs:96-110 -/
def openSegments : List String → EStateM Fault Dir (List Segment)
  | [] => return []
  | filepath :: filepaths => do
    match ← liftExec (Segment.fromFile (← MonadState.get) filepath) with
    | .ok segment => do
      let segments ← openSegments filepaths
      return segment :: segments
    | .error .corrupted => do
      Dir.tryRemove filepath
      openSegments filepaths
    | .error (.ioError kind) => throw (.io kind)

section
variable (levelZeroTargetSize levelSizeFactor indexSparsityFactor : ℕ)

/-- SOURCE: level.rs:137, 149, 208 -/
def levelTargetSize (levelNumber : ℕ) : Exec ℕ := do
  checkedMul 64 (← checkedMul 64 levelZeroTargetSize levelNumber) levelSizeFactor

/-- The segments of a partitioned level, in the order of their numbers.
SOURCE: level.rs:133-140, 145-152 -/
def closeLevel (segments : List Segment) (levelNumber : ℕ) : Exec PartitionedLevel := do
  let targetSize ← levelTargetSize levelZeroTargetSize levelSizeFactor levelNumber
  return ⟨segments.mergeSort fun s t => s.number ≤ t.number, targetSize, indexSparsityFactor,
    levelNumber⟩

/-- The loop over the segments in the order of their levels, with the segments of level zero so
far, those of the level at hand, and the levels that are complete.
SOURCE: level.rs:123-156 -/
def groupLoop : List Segment → List Segment → List Segment → List PartitionedLevel →
    Exec (List Segment × List PartitionedLevel)
  | [], levelZeroSegments, _, higherLevels => .ok (levelZeroSegments, higherLevels)
  | segment :: segments, levelZeroSegments, higherLevelSegments, higherLevels =>
    if segment.levelNumber = 0 then
      groupLoop segments (levelZeroSegments ++ [segment]) higherLevelSegments higherLevels
    else
      -- the level is closed before a segment of a higher one, and at the end
      if ∀ next ∈ segments.head?, next.levelNumber > segment.levelNumber then do
        let level ← closeLevel levelZeroTargetSize levelSizeFactor indexSparsityFactor
          (higherLevelSegments ++ [segment]) segment.levelNumber
        groupLoop segments levelZeroSegments [] (higherLevels ++ [level])
      else
        groupLoop segments levelZeroSegments (higherLevelSegments ++ [segment]) higherLevels

/-- A level over its target with another one behind it asks for the status of a merge, which is
not implemented.
SOURCE: level.rs:164-187, 392-397 -/
def checkMerges : List PartitionedLevel → Exec Unit
  | [] => .ok ()
  | level :: levels => do
    if (← level.exceedsTargetSize) ∧ levels ≠ [] then throw .panic
    checkMerges levels

variable (merge : Merge)

/-- A merge, after which the files of the segments that were merged are removed.
SOURCE: level.rs:193-196, 211-214 -/
def mergeAndRemove (level : PartitionedLevel) (segmentsToMerge : List Segment) :
    EStateM Fault Dir PartitionedLevel := do
  let (newLevel, segmentsToDelete) ← merge level segmentsToMerge
  segmentsToDelete.forM fun segment => Dir.remove segment.filepath
  return newLevel

/-- The loop over the levels that were found, with the segments to merge into the next of them.
SOURCE: level.rs:189-203 -/
def recoverLevels : List PartitionedLevel → List Segment → List PartitionedLevel →
    EStateM Fault Dir (List PartitionedLevel × List Segment)
  | [], segmentsToMerge, recovered => return (recovered, segmentsToMerge)
  | level :: levels, segmentsToMerge, recovered => do
    let newLevel ← if segmentsToMerge = [] then pure level
      else mergeAndRemove merge level segmentsToMerge
    let segmentsToMerge ← liftExec newLevel.segmentsToMerge
    recoverLevels levels segmentsToMerge (recovered ++ [newLevel])

/-- The loop that adds levels while the last one is over its target. A loop that takes more than
`fuel` rounds has not returned.
SOURCE: level.rs:205-217 -/
def addLevels : ℕ → List PartitionedLevel → List Segment →
    EStateM Fault Dir (List PartitionedLevel)
  | _, recovered, [] => return recovered
  | 0, _, _ => throw .panic
  | fuel + 1, recovered, segmentsToMerge => do
    let levelNumber := recovered.length + 1
    let targetSize ←
      liftExec (levelTargetSize levelZeroTargetSize levelSizeFactor levelNumber)
    let newLevel ← mergeAndRemove merge (PartitionedLevel.new targetSize levelNumber)
      segmentsToMerge
    let segmentsToMerge ← liftExec newLevel.segmentsToMerge
    addLevels fuel (recovered ++ [newLevel]) segmentsToMerge

/-- SOURCE: level.rs:81-222 -/
def fromDir (fuel : ℕ) : EStateM Fault Dir LevelContainer := do
  let filepaths := (← MonadState.get).names
  let segments ← openSegments filepaths
  if segments = [] then return LevelContainer.new levelZeroTargetSize
  let segments := segments.mergeSort fun s t => s.levelNumber ≤ t.levelNumber
  let (levelZeroSegments, higherLevels) ← liftExec
    (groupLoop levelZeroTargetSize levelSizeFactor indexSparsityFactor segments [] [] [])
  let levelZero : OverlappingLevel :=
    ⟨levelZeroSegments.mergeSort fun s t => s.number ≤ t.number, levelZeroTargetSize⟩
  liftExec (checkMerges higherLevels)
  let segmentsToMerge ← liftExec levelZero.segmentsToMerge
  let (recovered, segmentsToMerge) ← recoverLevels merge higherLevels segmentsToMerge []
  let recovered ← addLevels levelZeroTargetSize levelSizeFactor merge fuel recovered
    segmentsToMerge
  return ⟨levelZero, recovered⟩

end

end Rkvs.Model.Sst.LevelContainer

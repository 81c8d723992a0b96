import Rkvs.Interface.Compaction
import Rkvs.Model.SstRecovery

/-!
# Containers and their directories

When the files of a directory are those of a container, and what the numbers in a container must
be like so that it can be put together from its files.
-/

set_option autoImplicit false

namespace Rkvs.Interface

open Rkvs.Library Rkvs.Model

def allSegments (c : Sst.LevelContainer) : List Sst.Segment :=
  c.levelZero.segments ++ c.partitionedLevels.flatMap Sst.PartitionedLevel.segments

/-- A segment file whose footer was not written. -/
structure Incomplete (dir : Dir) (name : String) : Prop where
  named : ∃ numbers, Sst.Segment.levelAndSegmentNumberFromFilename name = .ok numbers
  long : Sst.SEGMENT_FOOTER_LEN ≤ (dir.content name).length
  unfinished : (dir.content name).drop ((dir.content name).length - 4) ≠ Sst.MAGIC_BYTES

/-- The complete segment files of a directory are those of the container. -/
structure FilesOf (c : Sst.LevelContainer) (dir : Dir) : Prop where
  opened : ∀ s ∈ allSegments c, Sst.Segment.fromFile dir s.filepath = .ok (.ok s)
  others : ∀ name ∈ dir.names, (∃ s ∈ allSegments c, s.filepath = name) ∨ Incomplete dir name

/-- Segments carry the numbers of their levels, levels come in the order of their numbers, and no
two segments of level zero have one number. -/
structure NumberedLevels (c : Sst.LevelContainer) : Prop where
  levelZero : ∀ s ∈ c.levelZero.segments, s.levelNumber = 0
  distinct : (c.levelZero.segments.map Sst.Segment.number).Nodup
  positive : ∀ level ∈ c.partitionedLevels, 0 < level.levelNumber
  levels : ∀ level ∈ c.partitionedLevels, ∀ s ∈ level.segments, s.levelNumber = level.levelNumber
  ascending : c.partitionedLevels.Pairwise fun l m => l.levelNumber < m.levelNumber

/-- No two entries of level zero have one sequence number. -/
def DistinctSequenceNumbers (c : Sst.LevelContainer) : Prop :=
  ((allEntries c.levelZero.segments).map SsTableEntry.sequenceNumber).Nodup

def fileSizes (segments : List Sst.Segment) : ℕ := (segments.map Sst.Segment.size).sum

/-- No level is over the target that a recovery computes for it. -/
structure WithinTargets (c : Sst.LevelContainer) (levelZeroTargetSize levelSizeFactor : ℕ) :
    Prop where
  target_lt : levelZeroTargetSize < 2 ^ 64
  levelZero : fileSizes c.levelZero.segments ≤ levelZeroTargetSize
  levels : ∀ level ∈ c.partitionedLevels, level.segments ≠ [] → ∃ targetSize,
    Sst.LevelContainer.levelTargetSize levelZeroTargetSize levelSizeFactor level.levelNumber =
      .ok targetSize ∧ fileSizes level.segments ≤ targetSize

end Rkvs.Interface

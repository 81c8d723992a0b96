import Rkvs.Interface.Compaction
import Rkvs.Interface.Recovery

/-!
# The order of the levels

What reads rely on: the ranges of a partitioned level are disjoint, the keys of a segment are in its
range, and what a level holds for a key is newer than what the levels behind it hold.
-/

set_option autoImplicit false

namespace Rkvs.Interface

open Rkvs.Library Rkvs.Model

/-- The levels as lists of segments, level zero first. -/
def levelSegments (c : Sst.LevelContainer) : List (List Sst.Segment) :=
  c.levelZero.segments :: c.partitionedLevels.map Sst.PartitionedLevel.segments

/-- Segments with keys in their ranges, in levels of which each is newer than those behind it. -/
structure Layered (c : Sst.LevelContainer) : Prop where
  ranged : ∀ s ∈ allSegments c, Ranged s
  partitioned : ∀ level ∈ c.partitionedLevels, Partitioned level.segments
  newer : (levelSegments c).Pairwise fun l l' =>
    NewerThan SsTableEntry.key SsTableEntry.sequenceNumber (allEntries l) (allEntries l')

end Rkvs.Interface

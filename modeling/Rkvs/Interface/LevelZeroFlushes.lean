import Rkvs.Interface.LogHistory
import Rkvs.Interface.ReadOrder

/-!
# A log and its flushes

The entries of a log up to some LSN are flushed in groups that follow each other. Every flush leaves
a segment of level zero with the newest version of every key in its group.
-/

set_option autoImplicit false

namespace Rkvs.Interface

open Rkvs.Library Rkvs.Model

/-- The version of its key that a log entry writes. -/
def writtenVersion (e : WalEntry) : SsTableEntry := ⟨e.key, e.value, e.sequenceNumber⟩

/-- The segment holds the newest version of every key in the group. -/
structure Flushed (group : List WalEntry) (s : Sst.Segment) : Prop where
  ranged : Ranged s
  newest : ∀ key, Newest (group.map writtenVersion) key (entryFor (entriesOf s) key)

/-- Level zero is the flushes of the groups, in any order, and no other level holds anything. -/
structure FlushedInto (groups : List (List WalEntry)) (c : Sst.LevelContainer) : Prop where
  levelZero : ∃ segments : List Sst.Segment, segments.Perm c.levelZero.segments ∧
    List.Forall₂ Flushed groups segments
  levels : ∀ level ∈ c.partitionedLevels, level.segments = []

end Rkvs.Interface

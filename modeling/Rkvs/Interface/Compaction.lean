import Rkvs.Interface.SstLevels
import Rkvs.Model.SstCompaction

/-!
# What a compaction must keep

A merge is assumed to give the newest version of every key of the level and the segments that it
is given, in a level that is partitioned again. A compaction keeps the contents if lookups of
every key give after it what they gave before.
-/

set_option autoImplicit false

namespace Rkvs.Interface

open Rkvs.Library Rkvs.Model

/-- A partitioned level as it should be. -/
structure GoodLevel (level : Sst.PartitionedLevel) : Prop where
  partitioned : Partitioned level.segments
  whole : ∀ s ∈ level.segments, Whole s

/-- A container as it should be. -/
structure GoodContainer (c : Sst.LevelContainer) : Prop where
  levelZero : ∀ s ∈ c.levelZero.segments, Whole s
  levels : ∀ level ∈ c.partitionedLevels, GoodLevel level

/-- Merges give newest-wins unions. -/
def MergesNewest (merge : Sst.Merge) : Prop :=
  ∀ level incoming d level' deleted d', GoodLevel level → (∀ s ∈ incoming, Whole s) →
    (merge level incoming).run d = .ok (level', deleted) d' →
      GoodLevel level' ∧ ∀ key, Newest (allEntries (level.segments ++ incoming)) key
        (entryFor (allEntries level'.segments) key)

/-- What the first of the levels that has the key holds for it. -/
def lookupLevels (key : String) (levels : List Sst.PartitionedLevel) : Option SsTableEntry :=
  levels.findSome? fun level => entryFor (allEntries level.segments) key

/-- The segments of the first level, if there is one. -/
def firstSegments : List Sst.PartitionedLevel → List Sst.Segment
  | [] => []
  | level :: _ => level.segments

/-- An entry is still what is found after the `chosen` segments were merged into the first of the
levels `behind`, and the level it was in is gone: among what is merged it is newer than every
other version, or no version is merged and it is what the other levels have. -/
def Kept (behind : List Sst.PartitionedLevel) (chosen : List Sst.Segment) (e : SsTableEntry) :
    Prop :=
  Wins SsTableEntry.key SsTableEntry.sequenceNumber
      (allEntries (firstSegments behind ++ chosen)) e ∨
    (∀ f ∈ allEntries (firstSegments behind ++ chosen), f.key ≠ e.key) ∧
      lookupLevels e.key behind.tail = some e

/-- Whatever newest-wins merges do, a compaction after a notification that returns leaves all
lookups as they were. -/
def NotifiedKeeps (bt : Sst.CompactionBt) : Prop :=
  ∀ merge, MergesNewest merge → ∀ fuel referenced bt',
    (Sst.CompactionBt.notified merge fuel referenced).run bt = .ok () bt' →
      ∀ key, bt'.container.get key = bt.container.get key

/-- So does one without a notification. -/
def TimedOutKeeps (bt : Sst.CompactionBt) : Prop :=
  ∀ merge, MergesNewest merge → ∀ fuel referenced bt',
    (Sst.CompactionBt.timedOut merge fuel referenced).run bt = .ok () bt' →
      ∀ key, bt'.container.get key = bt.container.get key

/-- A compaction without a notification gets to its first merge: the levels `front` are within
their targets, `first` is not, and `chosen` are its segments to merge into those behind it. -/
structure StartsAt (bt : Sst.CompactionBt) (front : List Sst.PartitionedLevel)
    (first : Sst.PartitionedLevel) (behind : List Sst.PartitionedLevel)
    (chosen : List Sst.Segment) : Prop where
  split : Sst.CompactionBt.findPartitionedLevelsToCompact bt.container.partitionedLevels =
    .ok (front, first :: behind)
  chosen : first.segmentsToMerge = .ok chosen
  number_lt : first.levelNumber + 2 < 2 ^ 64
  target_lt : behind = [] → first.targetSize * bt.levelSizeFactor < 2 ^ 64

end Rkvs.Interface

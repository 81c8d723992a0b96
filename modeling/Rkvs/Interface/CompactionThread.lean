import Rkvs.Interface.Compaction
import Rkvs.Library.Run

/-!
# Flushes and the compaction thread

The steps of the two threads that change the container, each in one critical section: a flush adds
a segment to level zero; a compaction copies the container, merges the copy with no lock held, and
swaps all levels. The merges give newest-wins unions of all segments of the copied level zero.
-/

set_option autoImplicit false

namespace Rkvs.Interface

open Rkvs.Library Rkvs.Model

/-- How far the compaction thread has come. -/
inductive Progress
  | idle
  | copied (copy : Sst.LevelContainer)
  | merged (copy : Sst.LevelContainer) (newLevels : List Sst.PartitionedLevel)

/-- What the threads share, with the segments that flushes have ever added and those of the copies
of which the merged levels were swapped in. -/
structure Shared where
  container : Sst.LevelContainer
  progress : Progress
  flushed : List Sst.Segment
  absorbed : List Sst.Segment

namespace Shared

/-- Before the threads have done anything. -/
def start (c : Sst.LevelContainer) : Shared := ⟨c, .idle, c.levelZero.segments, []⟩

inductive Action
  | flush
  | copy
  | merge
  | swap
  deriving DecidableEq

/-- SOURCE: compaction.rs:36-84, 210-220; level.rs:239-267; sstable.rs:88-95 -/
inductive Step : Shared → Action → Shared → Prop
  | flush {st : Shared} {dir : Dir} {path : String} {s : Sst.Segment} {c : Sst.LevelContainer}
      (written : Sst.Segment.fromFile dir path = .ok (.ok s)) (whole : Whole s)
      (added : st.container.addToLevelZero dir path = .ok c) :
      Step st .flush { st with container := c, flushed := st.flushed ++ [s] }
  | copy {st : Shared} (idle : st.progress = .idle) :
      Step st .copy { st with progress := .copied st.container }
  | merge {st : Shared} {bt bt' : Sst.CompactionBt} {chosen : List Sst.Segment} {merge : Sst.Merge}
      {fuel : ℕ} {newLevels : List Sst.PartitionedLevel}
      (copied : st.progress = .copied bt.container)
      (selected : bt.container.levelZero.segmentsToMerge = .ok chosen)
      (all : ∀ s ∈ bt.container.levelZero.segments, s ∈ chosen) (newest : MergesNewest merge)
      (returned : (Sst.CompactionBt.compactFromLevelZero merge fuel).run bt = .ok newLevels bt') :
      Step st .merge { st with progress := .merged bt.container newLevels }
  | swap {st : Shared} {copy : Sst.LevelContainer} {newLevels : List Sst.PartitionedLevel}
      (merged : st.progress = .merged copy newLevels) :
      Step st .swap
        { container := st.container.swapAllLevels newLevels
          progress := .idle
          flushed := st.flushed
          absorbed := st.absorbed ++ copy.levelZero.segments }

/-- The segments that are being merged. -/
def inMerge (st : Shared) : List Sst.Segment :=
  match st.progress with
  | .idle => []
  | .copied copy => copy.levelZero.segments
  | .merged copy _ => copy.levelZero.segments

/-- The levels have a version of every entry that is as new. -/
def Covers (levels : List Sst.PartitionedLevel) (es : List SsTableEntry) : Prop :=
  ∀ e ∈ es, ∃ l ∈ levels, ∃ f ∈ allEntries l.segments,
    f.key = e.key ∧ e.sequenceNumber ≤ f.sequenceNumber

/-- Every segment that was ever added is in level zero, or was merged into levels of the container
that have its entries or newer ones, or is being merged. -/
def NothingLost (st : Shared) : Prop :=
  ∀ s ∈ st.flushed, s ∈ st.container.levelZero.segments ∨
    s ∈ st.absorbed ∧ Covers st.container.partitionedLevels (entriesOf s) ∨ s ∈ st.inMerge

/-- Every segment of level zero is in the copy that is merged, or was merged before. -/
def UpToDate (st : Shared) : Prop :=
  ∀ s ∈ st.container.levelZero.segments, s ∈ st.inMerge ∨ s ∈ st.absorbed

end Shared

end Rkvs.Interface

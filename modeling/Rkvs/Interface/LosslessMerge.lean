import Rkvs.Interface.MergeSort
import Rkvs.Interface.SstLevels

/-!
# Merges of append-only data

Segments of which no two have a key in common are merged into new segments that are to hold every
entry once, in the order of the keys. A merge goes through rounds, and the order is right only if
each of them leaves nothing behind that belongs below what it has written.
-/

set_option autoImplicit false

namespace Rkvs.Interface

open Rkvs.Library Rkvs.Model

/-- Segments that a merge copies: their entries have keys and fit into a read buffer.
SOURCE: level.rs:483 -/
structure Mergeable (segments : List Sst.Segment) : Prop where
  whole : ∀ s ∈ segments, Whole s
  keys : ∀ e ∈ allEntries segments, e.key ≠ ""
  fits : ∀ e ∈ allEntries segments,
    e.len + 4 ≤ Sst.MERGE_BUF_MAX_TOTAL_SIZE / segments.length + 1
  short : ∀ s ∈ segments, s.dataBlockEnd + 1 < 2 ^ 64

/-- The entries of segments are merged in turn by read buffers that share the memory of a merge.
SOURCE: level.rs:483-490 -/
def MergesInTurn (segments : List Sst.Segment) : Prop :=
  MergeInTurn (Sst.MERGE_BUF_MAX_TOTAL_SIZE / segments.length + 1) (segments.map entriesOf)

/-- Segments of which no two have a key in common, with entries that fit into a read buffer.
SOURCE: level.rs:483 -/
structure AppendOnly (segments : List Sst.Segment) : Prop where
  nonempty : segments ≠ []
  whole : ∀ s ∈ segments, Whole s
  keys : ∀ e ∈ allEntries segments, e.key ≠ ""
  distinct : ((allEntries segments).map SsTableEntry.key).Nodup
  fits : ∀ e ∈ allEntries segments,
    e.len + 4 ≤ Sst.MERGE_BUF_MAX_TOTAL_SIZE / segments.length + 1

/-- The file operations of a merge succeed: there is no fault, the numbers of new segments fit into
the eight digits of a file name, no file is there under such a name, and the files do not get too
long.
SOURCE: level/segment.rs:305-320 -/
structure RoomFor (level : Sst.PartitionedLevel) (segments : List Sst.Segment) (d : Dir) :
    Prop where
  calm : d.faults = []
  numbered : level.highestSegmentNumber + (allEntries segments).length < 2 ^ 32
  fresh : ∀ n path, level.highestSegmentNumber < n →
    Sst.Segment.determineSegmentFilename level.levelNumber n = .ok path → path ∉ d.names
  short : 2 * framedBytes (allEntries segments) + 12 < 2 ^ 63

/-- New segments hold every entry once, in the order of the keys, and none is empty. -/
structure MergedAll (segments out : List Sst.Segment) : Prop where
  entries : (allEntries out).Perm (allEntries segments)
  ascending : Ascending (allEntries out)
  ranges : out.Pairwise fun s t => s.lastKey < t.firstKey
  whole : ∀ s ∈ out, Whole s
  nonempty : ∀ s ∈ out, entriesOf s ≠ []

/-- The merge returns new segments with all entries, whatever orders the maps have. -/
def LosesNothing (targetSize : ℕ) (level : Sst.PartitionedLevel) (segments : List Sst.Segment)
    (d : Dir) : Prop :=
  ∃ rounds, ∀ fuel ≥ rounds, ∀ orders, ∃ out d',
    (Sst.mergeAndWriteTo orders targetSize fuel level segments).run d = .ok out d' ∧
      MergedAll segments out

end Rkvs.Interface

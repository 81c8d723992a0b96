import Rkvs.Interface.SstFiles
import Rkvs.Library.Newest
import Rkvs.Model.SstLevel

/-!
# What levels hold

A level is judged by the entries that its segments hold. A merge is assumed to give the newest
version of every key of the segments it is given.
-/

set_option autoImplicit false

namespace Rkvs.Interface

open Rkvs.Library Rkvs.Model

/-- What the data block of a segment holds. -/
def entriesOf (seg : Sst.Segment) : List SsTableEntry :=
  match Sst.Segment.readTableEntries seg.file 0 seg.dataBlockEnd with
  | .ok es => es
  | .error _ => []

/-- A segment is as one of the writers has left it. -/
def Whole (seg : Sst.Segment) : Prop := Stored seg (entriesOf seg)

/-- The file of a segment has the entries that were written to it, in whatever order. -/
def Legible (seg : Sst.Segment) : Prop := Opened seg (entriesOf seg)

/-- A segment that holds entries in strictly ascending order, with an index of some of them. Their
keys are in its range, which may be wider. -/
structure Ranged (seg : Sst.Segment) : Prop where
  ascending : Ascending (entriesOf seg)
  fits : ∀ e ∈ entriesOf seg, EntryFits e
  data : ∃ rest, rest ≠ [] ∧ seg.file = dataBlock (entriesOf seg) ++ rest
  dataEnd : seg.dataBlockEnd = (dataBlock (entriesOf seg)).length
  index : seg.index.indices.Sublist (indexPlaces 0 (entriesOf seg))
  range : ∀ e ∈ entriesOf seg, seg.firstKey ≤ e.key ∧ e.key ≤ seg.lastKey

def allEntries (segments : List Sst.Segment) : List SsTableEntry := segments.flatMap entriesOf

/-- The key ranges are pairwise disjoint. -/
def Partitioned (segments : List Sst.Segment) : Prop :=
  segments.Pairwise fun s t => ¬s.overlaps t

/-- `r` is a newest version of the key. -/
def Newest (es : List SsTableEntry) (key : String) (r : Option SsTableEntry) : Prop :=
  IsNewest SsTableEntry.key SsTableEntry.sequenceNumber es key r

/-- The files `out` hold the newest-wins union of the segments `ins`, in ascending order. -/
structure MergedFiles (ins out : List Sst.Segment) : Prop where
  whole : ∀ s ∈ out, Whole s
  ascending : Ascending (allEntries out)
  newest : ∀ key, Newest (allEntries ins) key (entryFor (allEntries out) key)

/-- `merge_and_write` returns newest-wins unions. -/
def WritesNewest
    (mergeAndWrite : Sst.PartitionedLevel → List Sst.Segment → EStateM Fault Dir (List Sst.Segment)) :
    Prop :=
  ∀ level ins d out d', (∀ s ∈ ins, Whole s) → (mergeAndWrite level ins).run d = .ok out d' →
    MergedFiles ins out

/-- Every merge of the segments into the level leaves disjoint key ranges, and the only segment
that can hold a key is found. -/
def StaysPartitioned (level : Sst.PartitionedLevel) (incoming : List Sst.Segment) : Prop :=
  ∀ mergeAndWrite, WritesNewest mergeAndWrite → ∀ d level' deleted d',
    (level.merge mergeAndWrite incoming).run d = .ok (level', deleted) d' →
      Partitioned level'.segments ∧
        ∀ s ∈ level'.segments, ∀ e ∈ entriesOf s, level'.findContainingSegment e.key = some s

/-- The segments of a level that a merge of `incoming` reads. -/
def touchedBy (level : Sst.PartitionedLevel) (incoming : List Sst.Segment) : List Sst.Segment :=
  level.segments.filter fun s => incoming.any fun t => s.overlaps t

/-- A segment that the merge leaves alone lies between two that it reads. -/
def Straddled (level : Sst.PartitionedLevel) (incoming : List Sst.Segment) : Prop :=
  ∃ u ∈ level.segments, (∀ t ∈ incoming, ¬u.overlaps t) ∧
    ∃ a ∈ touchedBy level incoming ++ incoming, ∃ b ∈ touchedBy level incoming ++ incoming,
      a.lastKey < u.firstKey ∧ u.lastKey < b.firstKey

end Rkvs.Interface

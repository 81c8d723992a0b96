import Rkvs.Interface.Recovery
import Rkvs.Interface.SegmentContents

/-!
# Recorded sequence numbers

The highest sequence number that an opened segment has recorded is to be that of its entries. The
SSTable takes the highest of all segments for the last LSN that was flushed.
-/

set_option autoImplicit false

namespace Rkvs.Interface

open Rkvs.Library Rkvs.Model

/-- The sequence numbers of entries. -/
def sequenceNumbers (es : List SsTableEntry) : Set ℕ := {n | ∃ e ∈ es, e.sequenceNumber = n}

/-- The highest sequence number of its entries is recorded for the segment. -/
def RecordsHighest (s : Sst.Segment) : Prop :=
  IsGreatest (sequenceNumbers (entriesOf s)) s.highestSequenceNo

/-- The file opens to a segment with the highest sequence number of the entries. A table of it and of
segments that record theirs has the highest of all. -/
def OpensWithHighest (d : Dir) (path : String) (es : List SsTableEntry) : Prop :=
  ∃ s, Sst.Segment.fromFile d path = .ok (.ok s) ∧ entriesOf s = es ∧
    IsGreatest (sequenceNumbers es) s.highestSequenceNo ∧
    ∀ c : Sst.LevelContainer, s ∈ allSegments c →
      (∀ t ∈ allSegments c, t ≠ s → RecordsHighest t) →
      IsGreatest (sequenceNumbers (allEntries (allSegments c))) c.highestSequenceNumber

end Rkvs.Interface

import Rkvs.Interface.MergeSort
import Rkvs.Interface.SstLevels
import Rkvs.Library.Run

/-!
# What is done with a read buffer

A read buffer is filled and gives up its first entry, in any order. It is read to the end if it is
empty after it was filled.
-/

set_option autoImplicit false

namespace Rkvs.Interface

open Rkvs.Library Rkvs.Model

/-- What is done with a read buffer. -/
inductive BufferOp
  | fill
  | popFront

/-- A step of a read buffer, with the entries that it has given up so far. -/
inductive BufferStep : List SsTableEntry × Sst.SegmentReadBuf → BufferOp →
    List SsTableEntry × Sst.SegmentReadBuf → Prop
  | fill {popped : List SsTableEntry} {b b' : Sst.SegmentReadBuf} (h : b.fill = .ok b') :
      BufferStep (popped, b) .fill (popped, b')
  | popFront {popped : List SsTableEntry} {b b' : Sst.SegmentReadBuf} {opt : Option SsTableEntry}
      (h : b.popFront = .ok (opt, b')) :
      BufferStep (popped, b) .popFront (popped ++ opt.toList, b')

/-- A buffer that is empty after it was filled has given up all entries of its segment. -/
def EmptyIsExhausted (seg : Sst.Segment) (readBufLen : ℕ) : Prop :=
  ∀ steps popped b b', Run BufferStep ([], .new seg readBufLen) steps (popped, b) →
    b.fill = .ok b' → b'.isEmpty → popped = entriesOf seg

/-- The file of a segment has these entries in its data block. Its length is a number of 64
bits. -/
structure FileOf (es : List SsTableEntry) (seg : Sst.Segment) : Prop where
  fits : ∀ e ∈ es, EntryFits e
  data : ∃ rest, rest ≠ [] ∧ seg.file = dataBlock es ++ rest
  dataEnd : seg.dataBlockEnd = (dataBlock es).length
  short : seg.file.length < 2 ^ 64

/-- The numbers of a read buffer, which has given up some entries, are those of what it has read
and of what it holds. -/
structure Bookkept (es : List SsTableEntry) (maxSize : ℕ)
    (s : List SsTableEntry × Sst.SegmentReadBuf) : Prop where
  inOrder : s.1 ++ s.2.buf <+: es
  currOffset : s.2.currOffset = framedBytes (s.1 ++ s.2.buf)
  size : s.2.size = framedBytes s.2.buf
  size_le : s.2.size ≤ maxSize

end Rkvs.Interface

import Rkvs.Model.WalSegment

/-!
# The write-ahead log

`memtable/wal.rs` and the parts of `wal/segment.rs` that write. A log is its active segment
and its directory; everything it writes goes to the end of the active segment's file.
-/

set_option autoImplicit false

namespace Rkvs.Model

/-- SOURCE: wal.rs:7-11 -/
structure Wal where
  activeSegment : Segment
  segmentMaxSize : ℕ
  dir : Dir

section
variable (calculateChecksum : Bytes → UInt32)

namespace Wal

abbrev dirPart : StatePart Wal Dir := ⟨Wal.dir, fun w dir => { w with dir := dir }⟩

/-- A file operation in the directory of the log. -/
abbrev onDir {α : Type} (x : EStateM Fault Dir α) : EStateM Fault Wal α := onPart dirPart x

/-- SOURCE: wal.rs:14-26 -/
def createNew (dir : Dir) (segmentMaxSize : ℕ) : Exec Wal := do
  assert (segmentMaxSize ≠ 0)
  let path := determineSegmentFilename 0 0 segmentMaxSize
  match (Dir.createFile path).run dir with
  | .error e _ => .error e
  | .ok _ dir =>
    let segment ← Segment.new dir path segmentMaxSize
    return ⟨segment, segmentMaxSize, dir⟩

/-- SOURCE: wal.rs:28-34 -/
def fromSegment (dir : Dir) (segment : Segment) (segmentSize : ℕ) : Wal :=
  ⟨segment, segmentSize, dir⟩

/-- `Segment::append` on the active segment.
SOURCE: wal/segment.rs:102-106 -/
def segmentAppend (buf : Bytes) : EStateM Fault Wal Unit := do
  let segment := (← get).activeSegment
  let bufSize := buf.length % 2 ^ 32
  let fileSize ← liftExec (checkedAdd 32 segment.fileSize bufSize)
  liftExec (assert (fileSize ≤ segment.maxSize))
  onDir (Dir.writeAll segment.filePath buf)
  modify fun w => { w with activeSegment := { w.activeSegment with fileSize := fileSize } }

/-- `Segment::pad` on the active segment.
SOURCE: wal/segment.rs:108-113 -/
def segmentPad : EStateM Fault Wal Unit := do
  let segment := (← get).activeSegment
  let bufSize ← liftExec (checkedSub segment.maxSize segment.fileSize)
  segmentAppend (List.replicate bufSize 0)

/-- SOURCE: wal.rs:60-62 -/
def nextSequenceNumber (w : Wal) : Exec ℕ := w.activeSegment.nextLsn

/-- SOURCE: wal.rs:64-71 -/
def rotate (nextSequenceNumber : ℕ) : EStateM Fault Wal Unit := do
  let segmentMaxSize := (← get).segmentMaxSize
  liftExec (assert (segmentMaxSize ≠ 0))
  let path := determineSegmentFilename 0 nextSequenceNumber segmentMaxSize
  onDir (Dir.createFile path)
  let segment ← liftExec (Segment.new (← get).dir path segmentMaxSize)
  modify fun w => { w with activeSegment := segment }

/-- SOURCE: wal.rs:40-58 -/
def append (entry : WalEntry) : EStateM Fault Wal Unit := do
  let buf ← liftExec (entry.toBytes calculateChecksum)
  let bufSize := buf.length % 2 ^ 32
  let freeSpace ← liftExec (← get).activeSegment.remainingSpace
  if bufSize ≤ freeSpace then
    segmentAppend buf
  else if HEADER_SIZE ≤ freeSpace then do
    segmentAppend (buf.take HEADER_SIZE)
    segmentPad
    rotate (← liftExec (checkedAdd 64 entry.sequenceNumber bufSize))
    segmentAppend (buf.drop HEADER_SIZE)
  else do
    segmentPad
    rotate (← liftExec (checkedAdd 64 entry.sequenceNumber bufSize))
    segmentAppend buf

end Wal

end

end Rkvs.Model

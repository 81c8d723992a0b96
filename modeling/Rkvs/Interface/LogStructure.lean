import Rkvs.Interface.LogHistory

/-!
# The structure of a log

What the files of a log look like in between two operations, and what the next operation does to
them.
-/

set_option autoImplicit false

namespace Rkvs.Interface

open Rkvs.Model

/-- The next operation of a log, with the record that it writes and the LSN that this gets. -/
structure NextWrite (calculateChecksum : Bytes → UInt32) (segmentSize : ℕ) (log : Log) (op : LogOp)
    (lsn : ℕ) (entry : WalEntry) : Prop where
  fits : op.Fits calculateChecksum segmentSize
  handed : log.wal.nextSequenceNumber = .ok lsn
  record : op.entry lsn = some entry
  end_lt : lsn + (entry.encode calculateChecksum).length < 2 ^ 64

/-- A log as it should be. -/
structure Structured (calculateChecksum : Bytes → UInt32) (segmentSize : ℕ) (log : Log) : Prop where
  increasing : log.entries.Pairwise fun e f => e.sequenceNumber < f.sequenceNumber
  active : log.wal.activeSegment.filePath ∈ log.wal.dir.names
  full : ∀ name ∈ log.wal.dir.names, name ≠ log.wal.activeSegment.filePath →
    (log.wal.dir.content name).length = segmentSize
  fileSize : log.wal.activeSegment.fileSize =
    (log.wal.dir.content log.wal.activeSegment.filePath).length
  fileSize_le : log.wal.activeSegment.fileSize ≤ segmentSize
  remaining : log.wal.activeSegment.remainingSpace =
    .ok (segmentSize - log.wal.activeSegment.fileSize)
  /-- The number that is handed out next is higher than those before. -/
  next_gt : ∀ lsn, log.wal.nextSequenceNumber = .ok lsn → ∀ e ∈ log.entries, e.sequenceNumber < lsn
  /-- The file that is opened for a record that does not fit comes behind all others. -/
  opensLast : ∀ op lsn entry, NextWrite calculateChecksum segmentSize log op lsn entry →
    segmentSize - log.wal.activeSegment.fileSize < (entry.encode calculateChecksum).length →
    ∀ name ∈ log.wal.dir.names, name < determineSegmentFilename 0
      (lsn + (entry.encode calculateChecksum).length) segmentSize
  /-- The next write returns, and no file loses any of its contents. -/
  keeps : ∀ op lsn entry, NextWrite calculateChecksum segmentSize log op lsn entry →
    ∃ log', log.step calculateChecksum op = .ok log' ∧ ∀ name ∈ log.wal.dir.names,
      name ∈ log'.wal.dir.names ∧ log.wal.dir.content name <+: log'.wal.dir.content name

end Rkvs.Interface

import Rkvs.Model.MemTable

/-!
# Histories of a log

A history is what a caller does with a log: put, delete, and close and reopen through
`open_last_segment`. Running one on a fresh log in an empty directory, with all I/O succeeding,
leaves the log, the records that were written, and the place of each of them in the files.
-/

set_option autoImplicit false

namespace Rkvs.Interface

open Rkvs.Model

/-- A part of a file. -/
structure Extent where
  file : String
  offset : ℕ
  length : ℕ
  deriving DecidableEq, Repr

/-- A record in the log and the places its bytes went to, in order. -/
structure Record where
  entry : WalEntry
  extents : List Extent
  deriving DecidableEq, Repr

/-- What a caller does with a log. -/
inductive LogOp
  | put (key value : String)
  | delete (key : String)
  | reopen
  deriving DecidableEq, Repr

/-- The entry an operation writes when the log has reached `sequenceNumber`. -/
def LogOp.entry (sequenceNumber : ℕ) : LogOp → Option WalEntry
  | put key value => some ⟨.put, key, some value, sequenceNumber⟩
  | delete key => some ⟨.delete, key, none, sequenceNumber⟩
  | reopen => none

/-- An open log and the records written to it so far. -/
structure Log where
  wal : Wal
  records : List Record

/-- The last value written to a key, with the sequence number of the write; the value is
`none` for a delete. -/
def lastWrite (es : List WalEntry) (key : String) : Option MemTableValue :=
  (es.reverse.find? fun e => e.key = key).map fun e => ⟨e.value, e.sequenceNumber⟩

/-- The segment files whose LSNs end after `n`, opened in the order of their names. -/
def segmentsEndingAfter (dir : Dir) (segmentSize n : ℕ) : Exec (List Segment) := do
  let segments ← (dir.names.insertionSort (· ≤ ·)).mapM (MemTable.openSegment dir segmentSize)
  return segments.filter fun segment => n < segment.baseLsn + segmentSize

section
variable (calculateChecksum : Bytes → UInt32)

/-- The keys are not empty and every record fits into one segment. -/
def LogOp.Fits (segmentSize : ℕ) (op : LogOp) : Prop :=
  ∀ sequenceNumber e, op.entry sequenceNumber = some e →
    e.key ≠ "" ∧ (e.encode calculateChecksum).length ≤ segmentSize

namespace Log

def entries (log : Log) : List WalEntry := log.records.map Record.entry

/-- Where a record of `size` bytes went, from the state of the log before and after. -/
def extentsBetween (before after : Segment) (size : ℕ) : List Extent :=
  if after.filePath = before.filePath then [⟨before.filePath, before.fileSize, size⟩]
  else if after.fileSize = size then [⟨after.filePath, 0, size⟩]
  else [⟨before.filePath, before.fileSize, size - after.fileSize⟩,
    ⟨after.filePath, 0, after.fileSize⟩]

/-- One operation. -/
def step (log : Log) (op : LogOp) : Exec Log := do
  match op.entry (← log.wal.nextSequenceNumber) with
  | some entry =>
    match (Wal.append calculateChecksum entry).run log.wal with
    | .error e _ => .error e
    | .ok _ wal =>
      let extents := extentsBetween log.wal.activeSegment wal.activeSegment
        (entry.encode calculateChecksum).length
      return ⟨wal, log.records ++ [⟨entry, extents⟩]⟩
  | none =>
    let segmentSize := log.wal.segmentMaxSize
    let segment ← MemTable.openLastSegment log.wal.dir segmentSize
    return ⟨Wal.fromSegment log.wal.dir segment segmentSize, log.records⟩

/-- A history, started on a fresh log. -/
def run (segmentSize : ℕ) (ops : List LogOp) : Exec Log := do
  ops.foldlM (step calculateChecksum) ⟨← Wal.createNew Dir.empty segmentSize, []⟩

end Log

end

end Rkvs.Interface

import Rkvs.Model.SsTableEntry
import Rkvs.Model.Wal
import Mathlib.Data.Finmap
import Mathlib.Data.String.Basic

/-!
# The memtable

`memtable.rs`: recovery from the log, the repair of a damaged log at start, and the writes of
the worker thread. The hash map is a finite map, since nothing here depends on its order.
-/

set_option autoImplicit false

namespace Rkvs.Model

/-- `HashMap<String, MemTableValue>`. -/
abbrev Table := Finmap fun _ : String => MemTableValue

/-- A job without the channel for the answer.
SOURCE: memtable.rs:26-30 -/
inductive WriteJob
  | delete (key : String)
  | put (key value : String)
  | shutdown
  deriving DecidableEq, Repr

/-- What the writer thread owns, but for the flusher.
SOURCE: memtable.rs:39-47 -/
structure WriteWorker where
  table : Table
  wal : Wal
  currentSize : ℕ
  maxSize : ℕ

section
variable (calculateChecksum : Bytes → UInt32)

namespace MemTable

/-! ## Segment files -/

/-- The names of the segment files with log data past `sequence_number`, in order.
SOURCE: memtable.rs:228-244 -/
def listSegmentFiles (dir : Dir) (sequenceNumber : ℕ) : Exec (List String) := do
  let kept ← dir.files.filterM fun f => finalEntryAfter f.1 f.2.length sequenceNumber
  return (kept.map Prod.fst).insertionSort (· ≤ ·)

/-- SOURCE: memtable.rs:164-171, 189-196 -/
def openSegment (dir : Dir) (segmentSize : ℕ) (fp : String) : Exec Segment := do
  let fileSize := (dir.content fp).length
  if fileSize > segmentSize then .error (.io .fileTooLarge)
  else Segment.fromFile fp fileSize segmentSize

/-- SOURCE: memtable.rs:153-176 -/
def findAndOpenSegments (dir : Dir) (segmentSize sequenceNumber : ℕ) :
    Exec (List Segment) := do
  (← listSegmentFiles dir sequenceNumber).mapM (openSegment dir segmentSize)

/-- SOURCE: memtable.rs:178-197 -/
def openLastSegment (dir : Dir) (segmentSize : ℕ) : Exec Segment := do
  match (← listSegmentFiles dir 0).getLast? with
  | none => .error (.io .notFound)
  | some fp => openSegment dir segmentSize fp

/-- SOURCE: memtable.rs:199-226 -/
def truncateAndOpenSegmentFile (dir : Dir) (segmentFp : String) (offset segmentSize : ℕ) :
    Exec (Segment × Dir) := do
  let segmentFilepaths ← listSegmentFiles dir 0
  match segmentFilepaths.filter (fun p => segmentFp ≤ p) with
  | [] => .error (.io .notFound)
  | fp :: _ =>
    let dir ← dir.setLen fp offset
    let segment ← Segment.fromFile fp (offset % 2 ^ 32) segmentSize
    return (segment, dir)

/-! ## Recovery -/

/-- One replayed entry; puts and deletes are treated alike.
SOURCE: memtable.rs:262-284, 301-323 -/
def applyEntry (state : ℕ × Table) (entry : WalEntry) : ℕ × Table :=
  let value : MemTableValue := ⟨entry.value, entry.sequenceNumber⟩
  (state.1 + (SsTableEntry.fromValue entry.key value).len, state.2.insert entry.key value)

/-- The loop of `recover` over the segments, and the check for a partial entry at the end of
the log. The result comes with the table as it was filled until then.
SOURCE: memtable.rs:257-348 -/
def recoverLoop (dir : Dir) : List Segment → ℕ → Option PartialWalEntry → ℕ → Table →
    Exec (Table × Except (ℕ × RecoveryError) ℕ)
  | [], _, some entry, currSize, table =>
    .ok (table, .error (currSize, .corrupted entry.segmentFilePath entry.offset))
  | [], _, none, currSize, table => .ok (table, .ok currSize)
  | segment :: segments, offset, none, currSize, table => do
    let (entries, res) ← segment.readParseValidateFromOffset calculateChecksum dir offset
    let (currSize, table) := entries.foldl applyEntry (currSize, table)
    match res with
    | .ok opt => recoverLoop dir segments 0 opt currSize table
    | .error e => return (table, .error (currSize, e))
  | segment :: segments, offset, some partEntry, currSize, table => do
    let (entries, res) ←
      segment.readParseValidateFromPartialRecord calculateChecksum dir partEntry.bytes
    let noCurrentEntries := entries.isEmpty
    let (currSize, table) := entries.foldl applyEntry (currSize, table)
    match res with
    | .ok opt => recoverLoop dir segments offset opt currSize table
    | .error e =>
      if noCurrentEntries then
        return (table, .error (currSize,
          .corrupted partEntry.segmentFilePath partEntry.offset))
      else return (table, .error (currSize, e))

/-- SOURCE: memtable.rs:246-350 -/
def recover (dir : Dir) (segments : List Segment) (startingOffset : ℕ) (table : Table) :
    Exec (Table × Except (ℕ × RecoveryError) ℕ) :=
  recoverLoop calculateChecksum dir segments startingOffset none 0 table

/-- SOURCE: memtable.rs:50-89. A call that fails leaves no worker; the directory it leaves is
not part of the result. -/
def start (dir : Dir) (segmentSize sequenceNumber maxSize : ℕ) : Exec WriteWorker := do
  let segments ← findAndOpenSegments dir segmentSize sequenceNumber
  if segments = [] then
    let wal ← Wal.createNew dir segmentSize
    return ⟨∅, wal, 0, maxSize⟩
  else do
    let startingOffset ← checkedMod sequenceNumber segmentSize
    let (table, res) ← recover calculateChecksum dir segments startingOffset ∅
    match res with
    | .ok currSize =>
      let segment ← openLastSegment dir segmentSize
      return ⟨table, Wal.fromSegment dir segment segmentSize, currSize, maxSize⟩
    | .error (currSize, .corrupted fp offset) =>
      let (segment, dir) ← truncateAndOpenSegmentFile dir fp offset segmentSize
      let filePaths ← listSegmentFiles dir (← segment.nextLsn)
      let dir := filePaths.foldl Dir.removeFile dir
      return ⟨table, Wal.fromSegment dir segment segmentSize, currSize, maxSize⟩
    | .error (_, .io kind) => .error (.io kind)

end MemTable

/-! ## Writes -/

namespace WriteWorker

abbrev walPart : StatePart WriteWorker Wal := ⟨WriteWorker.wal, fun w wal => { w with wal := wal }⟩

/-- An operation on the log of the worker. -/
abbrev onWal {α : Type} (x : EStateM Fault Wal α) : EStateM Fault WriteWorker α := onPart walPart x

/-- What `put` and `delete` do once the log entry is on disk.
SOURCE: memtable.rs:366-373, 385-392 -/
def insertEntry (entry : WalEntry) : EStateM Fault WriteWorker (Option MemTableValue) := do
  let mvalue : MemTableValue := ⟨entry.value, entry.sequenceNumber⟩
  let len := (SsTableEntry.fromValue entry.key mvalue).len
  let val := (← get).table.lookup entry.key
  modify fun w => { w with table := w.table.insert entry.key mvalue }
  let currentSize ← liftExec (checkedAdd 64 (← get).currentSize len)
  modify fun w => { w with currentSize := currentSize }
  return val

/-- SOURCE: memtable.rs:357-374 -/
def put (key value : String) : EStateM Fault WriteWorker (Option MemTableValue) := do
  let sequenceNumber ← liftExec (← get).wal.nextSequenceNumber
  let entry : WalEntry := ⟨.put, key, some value, sequenceNumber⟩
  onWal (Wal.append calculateChecksum entry)
  insertEntry entry

/-- SOURCE: memtable.rs:376-393 -/
def delete (key : String) : EStateM Fault WriteWorker (Option MemTableValue) := do
  let sequenceNumber ← liftExec (← get).wal.nextSequenceNumber
  let entry : WalEntry := ⟨.delete, key, none, sequenceNumber⟩
  onWal (Wal.append calculateChecksum entry)
  insertEntry entry

/-! ### The loop of the writer thread -/

section
variable {φ : Type} (flush : Table → EStateM Fault φ Unit)

/-- A table that has grown to its limit is flushed and cleared. An error of the flusher, whose
state is `φ`, is not handled.
SOURCE: memtable.rs:397-407 -/
def flushIfFull : EStateM Fault (WriteWorker × φ) Unit := fun (w, f) =>
  if w.currentSize ≥ w.maxSize then
    match (flush w.table).run f with
    | .ok _ f => .ok () ({ w with table := ∅, currentSize := 0 }, f)
    | .error _ f => .error .panic (w, f)
  else .ok () (w, f)

/-- The answer to a write; an I/O error goes to the caller.
SOURCE: memtable.rs:409-414 -/
def answer {α : Type} (x : EStateM Fault WriteWorker α) :
    EStateM Fault (WriteWorker × φ) (Except ErrorKind α) := fun (w, f) =>
  match x.run w with
  | .ok a w => .ok (.ok a) (w, f)
  | .error (.io kind) w => .ok (.error kind) (w, f)
  | .error .panic w => .error .panic (w, f)

/-- One round of the loop of `run`, with the answer that is sent; `none` ends the loop.
SOURCE: memtable.rs:396-419 -/
def runJob (job : WriteJob) :
    EStateM Fault (WriteWorker × φ) (Option (Except ErrorKind (Option MemTableValue))) := do
  flushIfFull flush
  match job with
  | .delete key => some <$> answer (delete calculateChecksum key)
  | .put key value => some <$> answer (put calculateChecksum key value)
  | .shutdown => return none

/-- The last flush, whose error is ignored.
SOURCE: memtable.rs:420-423 -/
def finish : EStateM Fault (WriteWorker × φ) Unit := fun (w, f) =>
  if w.table = ∅ then .ok () (w, f)
  else match (flush w.table).run f with
    | .ok _ f => .ok () (w, f)
    | .error (.io _) f => .ok () (w, f)
    | .error .panic f => .error .panic (w, f)

/-- Dropping the memtable ends the loop.
SOURCE: memtable.rs:395-426, 429-439 -/
def close : EStateM Fault (WriteWorker × φ) Unit := do
  let _ ← runJob calculateChecksum flush .shutdown
  finish flush

end

end WriteWorker

end

end Rkvs.Model

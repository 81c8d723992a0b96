import Rkvs.Model.MemTable
import Rkvs.Model.Protocol

/-!
# The writer thread and its requests

The states the worker can be in: after a start in any directory, whatever its files hold, and
after writes that were answered, also with an I/O error, and flushes. A request that the protocol
accepts is a write of such a worker.
-/

set_option autoImplicit false

namespace Rkvs.Interface

open Rkvs.Model

/-- The worker with these outcomes of the next file operations. -/
def withFaults (w : WriteWorker) (faults : List IoEvent) : WriteWorker :=
  { w with wal := { w.wal with dir := { w.wal.dir with faults := faults } } }

section
variable (calculateChecksum : Bytes → UInt32)

/-- The states of a worker. -/
inductive Reachable (segmentSize : ℕ) : WriteWorker → Prop
  | started {dir : Dir} {sequenceNumber maxSize : ℕ} {w : WriteWorker}
      (start : MemTable.start calculateChecksum dir segmentSize sequenceNumber maxSize = .ok w) :
      Reachable segmentSize w
  | put {w w' : WriteWorker} {key value : String} {old : Option MemTableValue}
      (before : Reachable segmentSize w)
      (answer : (WriteWorker.put calculateChecksum key value).run w = .ok old w') :
      Reachable segmentSize w'
  | putFailed {w w' : WriteWorker} {key value : String} {kind : ErrorKind}
      (before : Reachable segmentSize w)
      (answer : (WriteWorker.put calculateChecksum key value).run w = .error (.io kind) w') :
      Reachable segmentSize w'
  | delete {w w' : WriteWorker} {key : String} {old : Option MemTableValue}
      (before : Reachable segmentSize w)
      (answer : (WriteWorker.delete calculateChecksum key).run w = .ok old w') :
      Reachable segmentSize w'
  | deleteFailed {w w' : WriteWorker} {key : String} {kind : ErrorKind}
      (before : Reachable segmentSize w)
      (answer : (WriteWorker.delete calculateChecksum key).run w = .error (.io kind) w') :
      Reachable segmentSize w'
  | flushed {w : WriteWorker} (before : Reachable segmentSize w) :
      Reachable segmentSize { w with table := ∅, currentSize := 0 }

/-- The write that a request asks for, on the worker's side. -/
def writeRequest {Uuid : Type} (r : TcpRequest Uuid) :
    EStateM Fault WriteWorker (Option MemTableValue) :=
  match r.headers.requestType, r.payload.value with
  | .put, some value => WriteWorker.put calculateChecksum r.payload.key value
  | .put, none => throw .panic
  | .delete, _ => WriteWorker.delete calculateChecksum r.payload.key
  | .get, _ => return none

end

/-- The number of bytes of the log record of a write. -/
def recordLength (key : String) (value : Option String) : ℕ :=
  21 + (asBytes key).length + value.elim 0 fun value => 4 + (asBytes value).length

/-- The active segment, or the one after it, has room for a record of `length` bytes. Lengths are
counted modulo 2^32. -/
def HasRoom (segment : Segment) (length : ℕ) : Prop :=
  let free := segment.maxSize - segment.fileSize
  let size := length % 2 ^ 32
  size ≤ free ∨ segment.baseLsn + segment.fileSize + size < 2 ^ 64 ∧
    (if HEADER_SIZE ≤ free then (length - HEADER_SIZE) % 2 ^ 32 else size) ≤ segment.maxSize

/-- The key is not empty, the log has room for the record, and the counters have room for it. -/
def Writable (w : WriteWorker) (key : String) (value : Option String) : Prop :=
  key ≠ "" ∧ w.wal.activeSegment.baseLsn + w.wal.activeSegment.fileSize < 2 ^ 64 ∧
    HasRoom w.wal.activeSegment (recordLength key value) ∧
    w.currentSize + (SsTableEntry.fromValue key ⟨value, 0⟩).len < 2 ^ 64

end Rkvs.Interface

import Rkvs.Interface.LogHistory

/-!
# Acknowledged writes

Puts and deletes that the writer thread processes one after the other and answers without an
error, together with the entries it has written for them.
-/

set_option autoImplicit false

namespace Rkvs.Interface

open Rkvs.Model

/-- The entry that a job writes when it is handed `sequenceNumber`. -/
def WriteJob.entry (sequenceNumber : ℕ) : WriteJob → Option WalEntry
  | .put key value => some ⟨.put, key, some value, sequenceNumber⟩
  | .delete key => some ⟨.delete, key, none, sequenceNumber⟩
  | .shutdown => none

section
variable (calculateChecksum : Bytes → UInt32) {φ : Type} (flush : Table → EStateM Fault φ Unit)

/-- What a write of an entry that is answered with `old` does to a worker.
SOURCE: memtable.rs:357-393 -/
structure EntryWritten (w : WriteWorker) (e : WalEntry) (old : Option MemTableValue)
    (w' : WriteWorker) : Prop where
  next : w.wal.nextSequenceNumber = .ok e.sequenceNumber
  append : (Wal.append calculateChecksum e).run w.wal = .ok () w'.wal
  old : old = w.table.lookup e.key
  table : w'.table = w.table.insert e.key ⟨e.value, e.sequenceNumber⟩
  size : w'.currentSize =
    w.currentSize + (SsTableEntry.fromValue e.key ⟨e.value, e.sequenceNumber⟩).len
  limit : w'.maxSize = w.maxSize

/-- The entries written for the jobs, and the worker and its flusher after them, if all jobs are
puts and deletes and all are acknowledged. -/
def acknowledge : WriteWorker × φ → List WriteJob → Option (List WalEntry × (WriteWorker × φ))
  | state, [] => some ([], state)
  | state, job :: jobs =>
    match state.1.wal.nextSequenceNumber,
        (WriteWorker.runJob calculateChecksum flush job).run state with
    | .ok sequenceNumber, .ok (some (.ok _)) state => do
      let (entries, state) ← acknowledge state jobs
      return ((← WriteJob.entry sequenceNumber job) :: entries, state)
    | _, _ => none

end

end Rkvs.Interface

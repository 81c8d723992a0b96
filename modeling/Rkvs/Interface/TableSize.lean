import Rkvs.Interface.Acknowledged
import Rkvs.Library.Run
import Rkvs.Library.Weight

/-!
# The size of the memtable

Puts and deletes that a worker answers without an error, with flushes in between whenever the
counter has reached the limit, and what the table holds next to what the worker has counted.
-/

set_option autoImplicit false

namespace Rkvs.Interface

open Rkvs.Library Rkvs.Model

/-- The sum of `SsTableEntry::len` over the entries of a table.
SOURCE: sstable.rs:195-208 -/
def tableLength (table : Table) : ℕ :=
  weight (fun key value => (SsTableEntry.fromValue key value).len) table

/-- A put or a delete is answered, after a flush if there was one.
SOURCE: memtable.rs:395-419 -/
def JobStep (calculateChecksum : Bytes → UInt32) {φ : Type} (flush : Table → EStateM Fault φ Unit)
    (state : WriteWorker × φ) (job : WriteJob) (state' : WriteWorker × φ) : Prop :=
  ∃ old, (WriteWorker.runJob calculateChecksum flush job).run state = .ok (some (.ok old)) state'

/-- The worker has counted all that the table holds, and the table, as well as the counter, is
below the limit but for the entry that the last job has written. -/
structure WithinLimit (maxSize : ℕ) (w : WriteWorker) (last : WriteJob) : Prop where
  counted : tableLength w.table ≤ w.currentSize
  bounded : ∃ n op key value, WriteJob.entry n last = some ⟨op, key, value, n⟩ ∧
    w.table.lookup key = some ⟨value, n⟩ ∧
    tableLength w.table < maxSize + (SsTableEntry.fromValue key ⟨value, n⟩).len ∧
    w.currentSize < maxSize + (SsTableEntry.fromValue key ⟨value, n⟩).len

end Rkvs.Interface

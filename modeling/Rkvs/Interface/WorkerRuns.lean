import Rkvs.Analysis.SegmentNames
import Rkvs.Interface.Acknowledged
import Rkvs.Interface.ConcurrentReads
import Rkvs.Interface.ReachableWorker

/-!
# Runs of a worker

Commands that a worker executes one after the other, with no compaction in between, from a store in
which the table, the levels and the log agree. Two runs may differ in the limit of the memtable.
-/

set_option autoImplicit false

namespace Rkvs.Interface

open Rkvs.Library Rkvs.Model Rkvs.Analysis

namespace Command

def key : Command → String
  | .delete key => key
  | .get key => key
  | .put key _ => key

/-- What a command is for the writer thread.
SOURCE: storage_engine.rs:203-212 -/
def job : Command → Option WriteJob
  | .delete key => some (.delete key)
  | .get _ => none
  | .put key value => some (.put key value)

/-- The log record of the command has a length of 32 bits. -/
def Short : Command → Prop
  | .delete key => recordLength key none < 2 ^ 32
  | .get _ => True
  | .put key value => recordLength key (some value) < 2 ^ 32

end Command

/-- The writer thread with its flusher. -/
abbrev Store := WriteWorker × Flusher

/-- A command and its answer. -/
abbrev Exchange := Command × Except ErrorKind (Option String)

/-- A command is answered. -/
def CommandStep (calculateChecksum : Bytes → UInt32) (st : Store) (exchange : Exchange)
    (st' : Store) : Prop :=
  (Worker.run calculateChecksum exchange.1).run st = .ok exchange.2 st'

/-- The store with another limit for the memtable. -/
def withLimit (st : Store) (maxSize : ℕ) : Store := ({ st.1 with maxSize := maxSize }, st.2)

/-- What a get would return. -/
def visible (st : Store) (key : String) : Exec (Option String) :=
  Worker.get st.1.table st.2.sstable key

/-- The answer is what a get would have returned just before. -/
def AnswersLikeGet (p : Store × Exchange) : Prop :=
  ∀ value, visible p.1 (Command.key p.2.1) = .ok value → p.2.2 = .ok value

/-- A write finds its key in a table that is not flushed first, or a get would have returned no
value. -/
def FoundInMemtable (p : Store × Exchange) : Prop :=
  Command.job p.2.1 ≠ none → p.1.1.currentSize < p.1.1.maxSize ∧
    p.1.1.table.lookup (Command.key p.2.1) ≠ none ∨
      visible p.1 (Command.key p.2.1) = .ok none

/-- The table and the levels hold the last insert for every key, the log goes on with a higher
sequence number, and the next segment of level zero has a new name. -/
structure WorkerConsistent (calculateChecksum : Bytes → UInt32) (s : SegmentSize) (st : Store)
    (inserts : List SsTableEntry) : Prop where
  engine : Engine.Consistent ⟨st.1.table, st.2.sstable, false, inserts, fun _ => none, []⟩
  log : ∃ ops log, (∀ op ∈ ops, LogOp.Fits calculateChecksum s.val op) ∧
    Log.run calculateChecksum s.val ops = .ok log ∧ st.1.wal = log.wal
  newer : ∀ n, st.1.wal.nextSequenceNumber = .ok n → ∀ e ∈ inserts, e.sequenceNumber < n
  fits : ∀ key value, st.1.table.lookup key = some value →
    EntryFits (SsTableEntry.fromValue key value)
  counted : st.1.table = ∅ → st.1.currentSize = 0
  fresh : ∀ n, st.2.sstable.levelZero.highestSegmentNumber < n → ∀ path,
    Sst.Segment.determineSegmentFilename 0 n = .ok path → path ∉ st.2.dir.names

end Rkvs.Interface

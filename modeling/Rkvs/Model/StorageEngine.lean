import Rkvs.Model.MemTable
import Rkvs.Model.SstLevel

/-!
# The storage engine

`Worker::get` asks the memtable under its read lock, then the SSTable with the levels that it has at
that time. `Worker::put` and `Worker::delete` are jobs for the writer thread, which flushes the
memtable with a `Flusher`. Nobody is notified that level zero is over its target.
-/

set_option autoImplicit false

namespace Rkvs.Model

/-- SOURCE: memtable.rs:130-132 -/
def MemTable.get (table : Table) (key : String) : Option MemTableValue := table.lookup key

/-- The flusher, with the files of the SSTable.
SOURCE: memtable_flusher.rs:11-15 -/
structure Flusher where
  sstable : Sst.LevelContainer
  dir : Dir
  indexSparsityFactor : ℕ

namespace Flusher

abbrev dirPart : StatePart Flusher Dir := ⟨Flusher.dir, fun f dir => { f with dir := dir }⟩

/-- A file operation in the directory of the SSTable. -/
abbrev onDir {α : Type} (x : EStateM Fault Dir α) : EStateM Fault Flusher α := onPart dirPart x

/-- SOURCE: memtable_flusher.rs:27-37; sstable.rs:88-95 -/
def flush (table : Table) : EStateM Fault Flusher Unit := do
  let number ← liftExec (checkedAdd 64 (← get).sstable.levelZero.highestSegmentNumber 1)
  let fp ← onDir
    (Sst.SegmentWriter.segmentFileFromMemtable table number (← get).indexSparsityFactor)
  let sstable ← liftExec ((← get).sstable.addToLevelZero (← get).dir fp)
  modify fun f => { f with sstable := sstable }
  let _ ← liftExec sstable.doCompact
  return ()

end Flusher

/-- What a client asks for, without the channel for the answer.
SOURCE: storage_engine.rs:32-36 -/
inductive Command
  | delete (key : String)
  | get (key : String)
  | put (key value : String)
  deriving DecidableEq, Repr

namespace Worker

/-- The first step of `get`; `none` if the SSTable has to be asked.
SOURCE: storage_engine.rs:193-194 -/
def getFromMemtable (table : Table) (key : String) : Option (Option String) :=
  (MemTable.get table key).map MemTableValue.value

/-- Its second step.
SOURCE: storage_engine.rs:195-198 -/
def getFromSstable (container : Sst.LevelContainer) (key : String) : Exec (Option String) := do
  return (← container.get key).bind SsTableEntry.value

/-- Both steps, with what the table and the levels are when they are asked.
SOURCE: storage_engine.rs:192-200 -/
def get (table : Table) (container : Sst.LevelContainer) (key : String) : Exec (Option String) :=
  match getFromMemtable table key with
  | some value => .ok value
  | none => getFromSstable container key

/-- A command, with its answer.
SOURCE: storage_engine.rs:176-212 -/
def run (calculateChecksum : Bytes → UInt32) (command : Command) :
    EStateM Fault (WriteWorker × Flusher) (Except ErrorKind (Option String)) :=
  match command with
  | .delete key => do
    match ← WriteWorker.runJob calculateChecksum Flusher.flush (.delete key) with
    | none => return .error .notConnected
    | some res => return res.map fun opt => opt.bind MemTableValue.value
  | .put key value => do
    match ← WriteWorker.runJob calculateChecksum Flusher.flush (.put key value) with
    | none => return .error .notConnected
    | some res => return res.map fun opt => opt.bind MemTableValue.value
  | .get key => fun state =>
    match get state.1.table state.2.sstable key with
    | .ok value => .ok (.ok value) state
    | .error (.io kind) => .ok (.error kind) state
    | .error .panic => .error .panic state

/-- INTERNAL: a read that finds its answer changes nothing. -/
theorem run_get_ok {calculateChecksum : Bytes → UInt32} {key : String}
    {state : WriteWorker × Flusher} {value : Option String}
    (h : get state.1.table state.2.sstable key = .ok value) :
    (run calculateChecksum (.get key)).run state = .ok (.ok value) state := by
  show run calculateChecksum (.get key) state = _
  unfold run
  dsimp only
  rw [h]

end Worker

end Rkvs.Model

import Rkvs.Interface.OrderlyMerges
import Rkvs.Interface.Sessions
import Rkvs.Library.Linearizability

/-!
# The running engine

Clients send operations to a queue, from which the threads of the workers take them. A worker looks
a key up itself, in the memtable and then in the levels, and hands a write to the writer thread,
which flushes a full memtable first. The compaction thread merges levels; no flush comes between
the two ends of a compaction. What is left of an operation that fails is what it has written.
-/

set_option autoImplicit false

namespace Rkvs.Interface

open Rkvs.Library Rkvs.Model History

/-- SOURCE: storage_engine.rs:137 -/
def WORKERS : ℕ := 6

/-- How far an operation of a client has come. -/
inductive OperationPhase
  | absent
  | queued (command : Command)
  | running (command : Command)
  | asking (key : String)
  | forwarded (command : Command)
  | answered (command : Command) (value : Option String)
  | returned
  | failed

/-- Where the writer thread is: waiting for a job, holding one, behind a flush with the lock of the
memtable, about to write to the log, about to insert, or gone. -/
inductive WriterPhase
  | receiving
  | received (id : ℕ)
  | clearing (id : ℕ)
  | writing (id : ℕ)
  | inserting (id : ℕ) (entry : WalEntry)
  | gone

/-- What clients and threads share. The operations are known by numbers; the workers that are not
idle by what they work on. A lock that a thread has panicked with is poisoned. The workers that have
panicked or ended are gone. -/
structure RunningEngine where
  operations : ℕ → OperationPhase
  queue : List ℕ
  busy : List ℕ
  workersGone : ℕ
  writeQueue : List ℕ
  writer : WriterPhase
  poisoned : Bool
  store : Store
  segmentsToDelete : List Sst.Segment
  levelSizeFactor : ℕ
  closing : Bool
  history : List (Event Command (Option String))

namespace RunningEngine

/-- The writer thread holds the lock of the memtable. -/
def flushing (st : RunningEngine) : Bool :=
  match st.writer with
  | .clearing _ => true
  | _ => false

/-- What the compaction thread works on. -/
def bt (st : RunningEngine) : Sst.CompactionBt :=
  ⟨st.store.2.sstable, st.segmentsToDelete, st.levelSizeFactor, st.store.2.dir⟩

def withBt (st : RunningEngine) (bt : Sst.CompactionBt) : RunningEngine :=
  { st with
    store := (st.store.1, { st.store.2 with sstable := bt.container, dir := bt.dir })
    segmentsToDelete := bt.segmentsToDelete
    levelSizeFactor := bt.levelSizeFactor }

/-- An operation gets to another phase. -/
def moved (st : RunningEngine) (id : ℕ) (phase : OperationPhase) : RunningEngine :=
  { st with operations := Function.update st.operations id phase }

/-- An operation is over, and its worker is idle again. -/
def ended (st : RunningEngine) (id : ℕ) (phase : OperationPhase) : RunningEngine :=
  { st with
    operations := Function.update st.operations id phase
    busy := st.busy.erase id }

inductive Action
  | invoke (id : ℕ) (command : Command)
  | close
  | worker (id : ℕ)
  | leave
  | writer
  | flush
  | notified (m : Lsm.Merging)
  | timedOut (m : Lsm.Merging) (referenced : Sst.Segment → Bool)
  | compactionFails

section
variable (calculateChecksum : Bytes → UInt32)

/-- One step of a client or a thread. A worker that panics on a poisoned lock drops its operation,
and the last one of them all that are queued. When the engine shuts down, a worker that finds no more
operations in the queue ends. If a flush panics behind the change of the levels, their
lock is poisoned as well, and no one sees the change.
SOURCE: storage_engine.rs:69-149, 161-212; memtable.rs:112-151, 357-419;
sstable.rs:61-95; compaction.rs:200-240 -/
inductive Step : RunningEngine → Action → RunningEngine → Prop
  | invoke {st : RunningEngine} {id : ℕ} {command : Command}
      (fresh : st.operations id = .absent) (opened : st.closing = false) :
      Step st (.invoke id command)
        { st.moved id (.queued command) with
          queue := st.queue ++ [id]
          history := st.history ++ [.invoke id command] }
  | close {st : RunningEngine} : Step st .close { st with closing := true }
  | leave {st : RunningEngine} (closing : st.closing = true) (done : st.queue = [])
      (idle : st.busy.length + st.workersGone < WORKERS) :
      Step st .leave { st with workersGone := st.workersGone + 1 }
  | take {st : RunningEngine} {id : ℕ} {rest : List ℕ} {command : Command}
      (next : st.queue = id :: rest) (queued : st.operations id = .queued command)
      (idle : st.busy.length + st.workersGone < WORKERS) :
      Step st (.worker id)
        { st.moved id (.running command) with queue := rest, busy := st.busy ++ [id] }
  | found {st : RunningEngine} {id : ℕ} {key : String} {value : Option String}
      (running : st.operations id = .running (.get key)) (unlocked : st.flushing = false)
      (healthy : st.poisoned = false)
      (here : Worker.getFromMemtable st.store.1.table key = some value) :
      Step st (.worker id) (st.moved id (.answered (.get key) value))
  | notFound {st : RunningEngine} {id : ℕ} {key : String}
      (running : st.operations id = .running (.get key)) (unlocked : st.flushing = false)
      (healthy : st.poisoned = false)
      (absent : Worker.getFromMemtable st.store.1.table key = none) :
      Step st (.worker id) (st.moved id (.asking key))
  | readPanics {st : RunningEngine} {id : ℕ} {key : String}
      (running : st.operations id = .running (.get key)) (poisoned : st.poisoned = true) :
      Step st (.worker id) { st.ended id .failed with workersGone := st.workersGone + 1 }
  | lookupLevels {st : RunningEngine} {id : ℕ} {key : String} {value : Option String}
      (asking : st.operations id = .asking key)
      (answer : Worker.getFromSstable st.store.2.sstable key = .ok value) :
      Step st (.worker id) (st.moved id (.answered (.get key) value))
  | lookupFails {st : RunningEngine} {id : ℕ} {key : String} {kind : ErrorKind}
      (asking : st.operations id = .asking key)
      (failed : Worker.getFromSstable st.store.2.sstable key = .error (.io kind)) :
      Step st (.worker id) (st.ended id .failed)
  | lookupPanics {st : RunningEngine} {id : ℕ} {key : String}
      (asking : st.operations id = .asking key) (poisoned : st.poisoned = true) :
      Step st (.worker id) { st.ended id .failed with workersGone := st.workersGone + 1 }
  | dropped {st : RunningEngine} {id : ℕ} {rest : List ℕ} {command : Command}
      (next : st.queue = id :: rest) (queued : st.operations id = .queued command)
      (gone : st.workersGone = WORKERS) :
      Step st (.worker id) { st.moved id .failed with queue := rest }
  | forward {st : RunningEngine} {id : ℕ} {command : Command}
      (running : st.operations id = .running command) (write : Command.job command ≠ none)
      (listens : st.writer ≠ .gone) :
      Step st (.worker id)
        { st.moved id (.forwarded command) with writeQueue := st.writeQueue ++ [id] }
  | refused {st : RunningEngine} {id : ℕ} {command : Command}
      (sent : st.operations id = .forwarded command ∨
        st.operations id = .running command ∧ Command.job command ≠ none)
      (gone : st.writer = .gone) : Step st (.worker id) (st.ended id .failed)
  | respond {st : RunningEngine} {id : ℕ} {command : Command} {value : Option String}
      (answered : st.operations id = .answered command value) :
      Step st (.worker id)
        { st.ended id .returned with history := st.history ++ [.respond id value] }
  | receive {st : RunningEngine} {id : ℕ} {rest : List ℕ} {command : Command}
      (waiting : st.writer = .receiving) (next : st.writeQueue = id :: rest)
      (forwarded : st.operations id = .forwarded command) :
      Step st .writer { st with writeQueue := rest, writer := .received id }
  | keep {st : RunningEngine} {id : ℕ} (received : st.writer = .received id)
      (room : st.store.1.currentSize < st.store.1.maxSize) :
      Step st .writer { st with writer := .writing id }
  | flush {st : RunningEngine} {id : ℕ} {flusher : Flusher} (received : st.writer = .received id)
      (full : st.store.1.maxSize ≤ st.store.1.currentSize)
      (flushed : (Flusher.flush st.store.1.table).run st.store.2 = .ok () flusher) :
      Step st .flush { st with store := (st.store.1, flusher), writer := .clearing id }
  | flushFails {st : RunningEngine} {id : ℕ} {flusher : Flusher} {e : Fault}
      (received : st.writer = .received id)
      (full : st.store.1.maxSize ≤ st.store.1.currentSize)
      (failed : (Flusher.flush st.store.1.table).run st.store.2 = .error e flusher) :
      Step st .flush
        { st with
          store := (st.store.1, { flusher with sstable := st.store.2.sstable })
          writer := .gone
          poisoned := true }
  | clear {st : RunningEngine} {id : ℕ} (clearing : st.writer = .clearing id) :
      Step st .writer
        { st with
          store := ({ st.store.1 with table := ∅, currentSize := 0 }, st.store.2)
          writer := .writing id }
  | append {st : RunningEngine} {id n : ℕ} {command : Command} {job : WriteJob} {entry : WalEntry}
      {worker : WriteWorker} (writing : st.writer = .writing id)
      (forwarded : st.operations id = .forwarded command) (write : Command.job command = some job)
      (next : st.store.1.wal.nextSequenceNumber = .ok n)
      (record : WriteJob.entry n job = some entry)
      (appended : (WriteWorker.onWal (Wal.append calculateChecksum entry)).run st.store.1 =
        .ok () worker) :
      Step st .writer
        { st with store := (worker, st.store.2), writer := .inserting id entry }
  | appendFails {st : RunningEngine} {id n : ℕ} {command : Command} {job : WriteJob}
      {entry : WalEntry} {worker : WriteWorker} {kind : ErrorKind}
      (writing : st.writer = .writing id) (forwarded : st.operations id = .forwarded command)
      (write : Command.job command = some job)
      (next : st.store.1.wal.nextSequenceNumber = .ok n)
      (record : WriteJob.entry n job = some entry)
      (failed : (WriteWorker.onWal (Wal.append calculateChecksum entry)).run st.store.1 =
        .error (.io kind) worker) :
      Step st .writer
        { st.ended id .failed with store := (worker, st.store.2), writer := .receiving }
  | numberPanics {st : RunningEngine} {id : ℕ} (writing : st.writer = .writing id)
      (panicked : st.store.1.wal.nextSequenceNumber = .error .panic) :
      Step st .writer { st with writer := .gone }
  | appendPanics {st : RunningEngine} {id n : ℕ} {command : Command} {job : WriteJob}
      {entry : WalEntry} {worker : WriteWorker} (writing : st.writer = .writing id)
      (forwarded : st.operations id = .forwarded command) (write : Command.job command = some job)
      (next : st.store.1.wal.nextSequenceNumber = .ok n)
      (record : WriteJob.entry n job = some entry)
      (panicked : (WriteWorker.onWal (Wal.append calculateChecksum entry)).run st.store.1 =
        .error .panic worker) :
      Step st .writer { st with store := (worker, st.store.2), writer := .gone }
  | insert {st : RunningEngine} {id : ℕ} {command : Command} {entry : WalEntry}
      {worker : WriteWorker} {old : Option MemTableValue}
      (inserting : st.writer = .inserting id entry)
      (forwarded : st.operations id = .forwarded command)
      (inserted : (WriteWorker.insertEntry entry).run st.store.1 = .ok old worker) :
      Step st .writer
        { st.moved id (.answered command (old.bind MemTableValue.value)) with
          store := (worker, st.store.2)
          writer := .receiving }
  | insertPanics {st : RunningEngine} {id : ℕ} {command : Command} {entry : WalEntry}
      {worker : WriteWorker} (inserting : st.writer = .inserting id entry)
      (forwarded : st.operations id = .forwarded command)
      (panicked : (WriteWorker.insertEntry entry).run st.store.1 = .error .panic worker) :
      Step st .writer { st with store := (worker, st.store.2), writer := .gone }
  | notified {st : RunningEngine} {m : Lsm.Merging} {fuel : ℕ} {referenced : Sst.Segment → Bool}
      {bt : Sst.CompactionBt}
      (returned : (Sst.CompactionBt.notified m.merge fuel referenced).run st.bt = .ok () bt) :
      Step st (.notified m) (st.withBt bt)
  | timedOut {st : RunningEngine} {m : Lsm.Merging} {fuel : ℕ} {referenced : Sst.Segment → Bool}
      {bt : Sst.CompactionBt}
      (returned : (Sst.CompactionBt.timedOut m.merge fuel referenced).run st.bt = .ok () bt) :
      Step st (.timedOut m referenced) (st.withBt bt)
  | notifiedFails {st : RunningEngine} {m : Lsm.Merging} {fuel : ℕ}
      {referenced : Sst.Segment → Bool} {bt : Sst.CompactionBt} {e : Fault}
      (failed : (Sst.CompactionBt.notified m.merge fuel referenced).run st.bt = .error e bt) :
      Step st .compactionFails (st.withBt bt)
  | timedOutFails {st : RunningEngine} {m : Lsm.Merging} {fuel : ℕ}
      {referenced : Sst.Segment → Bool} {bt : Sst.CompactionBt} {e : Fault}
      (failed : (Sst.CompactionBt.timedOut m.merge fuel referenced).run st.bt = .error e bt) :
      Step st .compactionFails (st.withBt bt)

end

/-- A worker or the writer thread goes on. -/
def Action.Works : Action → Prop
  | .worker _ => True
  | .leave => True
  | .writer => True
  | .flush => True
  | _ => False

/-- Records are short, no file is in the way of a flush, and a compaction selects all segments of the
level that it takes out, with orderly merges. -/
def Clean (st : RunningEngine) : Action → Prop
  | .invoke _ command => Command.Short command
  | .flush => ∀ path,
      Sst.Segment.determineSegmentFilename 0 (st.store.2.sstable.levelZero.highestSegmentNumber + 1) =
        .ok path → path ∉ st.store.2.dir.names
  | .notified m => Lsm.Clean ⟨st.bt, []⟩ (.notified m)
  | .timedOut m referenced => Lsm.Clean ⟨st.bt, []⟩ (.timedOut m referenced)
  | _ => True

end RunningEngine

/-- A map from keys to values. A get returns the value of its key; what a write returns is left
open. -/
def keyValues : Sequential (String → Option String) Command (Option String) where
  next m
    | .get _ => m
    | .put key value => Function.update m key (some value)
    | .delete key => Function.update m key none
  allows m command res :=
    match command with
    | .get key => res = m key
    | _ => True

end Rkvs.Interface

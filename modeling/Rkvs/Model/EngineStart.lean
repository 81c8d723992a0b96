import Rkvs.Model.SstRecovery
import Rkvs.Model.StorageEngine

/-!
# The start of the storage engine

`StorageEngine::new` puts the levels together from the directory `SSTable` and the memtable from
the directory `WAL`. The memtable is flushed to files next to these directories, and there the
compactions write as well.
-/

set_option autoImplicit false

namespace Rkvs.Model

/-- SOURCE: storage_engine.rs:53-61 -/
structure StorageEngineConf where
  segmentSize : ℕ
  memtableMaxSize : ℕ
  sstableIndexSparsityFactor : ℕ
  levelZeroSize : ℕ
  levelSizeFactor : ℕ

/-- The directory of the configuration, with the two directories in it. A missing `WAL` is as good
as an empty one, since the start creates it; a missing `SSTable` is not. -/
structure EngineDir where
  files : Dir
  wal : Dir
  sstable : Option Dir

/-- What the threads of the engine work on, with the directory `SSTable` as the start leaves it. A
start that fails leaves no engine; the directories it leaves are not part of the result.
SOURCE: storage_engine.rs:112-149; sstable.rs:30-61; level.rs:90 -/
def StorageEngine.new (calculateChecksum : Bytes → UInt32) (merge : Sst.Merge) (fuel : ℕ)
    (config : StorageEngineConf) (d : EngineDir) : Exec ((WriteWorker × Flusher) × Dir) :=
  match d.sstable with
  | none => .error (.io .notFound)
  | some sstableDir =>
    match (Sst.LevelContainer.fromDir config.levelZeroSize config.levelSizeFactor
        config.sstableIndexSparsityFactor merge fuel).run sstableDir with
    | .error e _ => .error e
    | .ok sstable dir => do
      let worker ← MemTable.start calculateChecksum d.wal config.segmentSize
        sstable.highestSequenceNumber config.memtableMaxSize
      return ((worker, ⟨sstable, d.files, config.sstableIndexSparsityFactor⟩), dir)

end Rkvs.Model

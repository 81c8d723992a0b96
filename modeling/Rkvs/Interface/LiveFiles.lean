import Rkvs.Interface.Cascade
import Rkvs.Interface.Recovery
import Rkvs.Library.Run
import Rkvs.Model.SstMerge
import Rkvs.Model.StorageEngine

/-!
# Files that are still read

Flushes, compactions of all of level zero, readers that hold copies of the container, and the
removal of the files of segments that were merged. A file is removed when nothing but the queue
refers to its segment.
-/

set_option autoImplicit false

namespace Rkvs.Interface

open Rkvs.Library Rkvs.Model

/-- What the compaction thread owns, with the files, and the copies that readers hold. -/
structure SharedFiles where
  bt : Sst.CompactionBt
  readers : ℕ → Option Sst.LevelContainer

namespace SharedFiles

inductive Action
  | flush (table : Table) (indexSparsityFactor : ℕ)
  | compact (orders : Sst.PartitionedLevel → List Sst.Segment → ℕ → Sst.IterationOrder)
      (limit : ℕ)
  | acquire (reader : ℕ)
  | release (reader : ℕ)
  | removeSegmentFiles

/-- A segment is in the container or in the copy of a reader. -/
def Referenced (st : SharedFiles) (s : Sst.Segment) : Prop :=
  s ∈ allSegments st.bt.container ∨
    ∃ reader c, st.readers reader = some c ∧ s ∈ allSegments c

/-- SOURCE: memtable_flusher.rs:27-37; compaction.rs:36-84, 172-194, 212-224; level.rs:239-267 -/
inductive Step : SharedFiles → Action → SharedFiles → Prop
  | flush {st : SharedFiles} {table : Table} {indexSparsityFactor : ℕ} {f' : Flusher}
      (flushed : (Flusher.flush table).run ⟨st.bt.container, st.bt.dir, indexSparsityFactor⟩ =
        .ok () f') :
      Step st (.flush table indexSparsityFactor)
        { st with bt := { st.bt with container := f'.sstable, dir := f'.dir } }
  | compact {st : SharedFiles} {bt' : Sst.CompactionBt} {chosen : List Sst.Segment}
      {orders : Sst.PartitionedLevel → List Sst.Segment → ℕ → Sst.IterationOrder}
      {limit fuel : ℕ} {newLevels : List Sst.PartitionedLevel}
      (selected : st.bt.container.levelZero.segmentsToMerge = .ok chosen)
      (all : ∀ s ∈ st.bt.container.levelZero.segments, s ∈ chosen)
      (returned : (Sst.CompactionBt.compactFromLevelZero (Sst.mergeLevels orders limit) fuel).run
        st.bt = .ok newLevels bt') :
      Step st (.compact orders limit)
        { st with bt := { bt' with container := bt'.container.swapAllLevels newLevels } }
  | acquire {st : SharedFiles} {reader : ℕ} (idle : st.readers reader = none) :
      Step st (.acquire reader)
        { st with readers := Function.update st.readers reader (some st.bt.container) }
  | release {st : SharedFiles} {reader : ℕ} :
      Step st (.release reader) { st with readers := Function.update st.readers reader none }
  | removeSegmentFiles {st : SharedFiles} {bt' : Sst.CompactionBt} {referenced : Sst.Segment → Bool}
      (counted : ∀ s ∈ st.bt.segmentsToDelete, referenced s = true ↔ Referenced st s)
      (removed : (Sst.CompactionBt.removeSegmentFiles referenced).run st.bt = .ok () bt') :
      Step st .removeSegmentFiles { st with bt := bt' }

/-- Nothing is to be deleted or read, and the files of the container are there under the names that
the code gives them. -/
structure Started (st : SharedFiles) : Prop where
  queue : st.bt.segmentsToDelete = []
  readers : ∀ reader, st.readers reader = none
  numbered : NumberedLevels st.bt.container
  named : ∀ s ∈ allSegments st.bt.container,
    Sst.Segment.determineSegmentFilename s.levelNumber s.number = .ok s.filepath
  opened : ∀ s ∈ allSegments st.bt.container,
    Sst.Segment.fromFile st.bt.dir s.filepath = .ok (.ok s)

/-- No file of the container is to be deleted, and the file of every segment that is referred to
is there with the contents it was opened with. -/
structure Safe (st : SharedFiles) : Prop where
  separate : ∀ s ∈ st.bt.segmentsToDelete, ∀ t ∈ allSegments st.bt.container,
    s.filepath ≠ t.filepath
  intact : ∀ s, Referenced st s → Sst.Segment.fromFile st.bt.dir s.filepath = .ok (.ok s)

/-- A flush does not take the number of a segment of level zero that is to be deleted, and a
compaction does not go on to a second merge. -/
def Careful (p : SharedFiles × Action) : Prop :=
  match p.2 with
  | .flush _ _ => ∀ s ∈ p.1.bt.segmentsToDelete, s.levelNumber = 0 →
      s.number ≠ p.1.bt.container.levelZero.highestSegmentNumber + 1
  | .compact orders limit => FirstMergeFits (Sst.mergeLevels orders limit) p.1.bt
  | _ => True

end SharedFiles

end Rkvs.Interface

import Rkvs.Interface.Compaction
import Rkvs.Interface.CompactionEnds
import Rkvs.Library.Run

/-!
# Levels that are merged by the code

Flushes add segments to level zero, and compactions merge them with what `merge_and_write` writes.
A compaction is orderly if each of its merges is in turn, and none writes over a file or over the
range of a segment that it leaves alone.
-/

set_option autoImplicit false

namespace Rkvs.Interface

open Rkvs.Library Rkvs.Model Relation

/-- A merge reads segments that it copies in turn, no file has the name of a new segment, and no
segment of the level lies between two that are read.
SOURCE: level.rs:441-477 -/
structure Orderly (level : Sst.PartitionedLevel) (incoming : List Sst.Segment) (d : Dir) : Prop where
  mergeable : Mergeable (touchedBy level incoming ++ incoming)
  inTurn : MergesInTurn (touchedBy level incoming ++ incoming)
  fresh : ∀ k > level.highestSegmentNumber, ∀ path,
    Sst.Segment.determineSegmentFilename level.levelNumber k = .ok path → path ∉ d.names
  apart : ¬Straddled level incoming

/-- So is every merge of a compaction that goes on with `c`. -/
def OrderlyFrom (merge : Sst.Merge) (c : Compacting) : Prop :=
  ∀ c', ReflTransGen (GoesOn merge) c c' → Orderly c'.next c'.chosen c'.bt.dir

/-- The levels, with the segments that flushes have ever added. -/
structure Lsm where
  bt : Sst.CompactionBt
  flushed : List Sst.Segment

namespace Lsm

/-- The orders of the maps in the merges, of which every loop takes less than `limit` rounds. -/
structure Merging where
  orders : Sst.PartitionedLevel → List Sst.Segment → ℕ → Sst.IterationOrder
  limit : ℕ

def Merging.merge (m : Merging) : Sst.Merge := Sst.mergeLevels m.orders m.limit

inductive Action
  | flush (s : Sst.Segment)
  | notified (m : Merging)
  | timedOut (m : Merging) (referenced : Sst.Segment → Bool)
  | failed

/-- A flush or a compaction. One that fails leaves its files behind.
SOURCE: compaction.rs:200-240; level.rs:248-267 -/
inductive Step : Lsm → Action → Lsm → Prop
  | flush {st : Lsm} {dir : Dir} {path : String} {s : Sst.Segment} {c : Sst.LevelContainer}
      (written : Sst.Segment.fromFile dir path = .ok (.ok s)) (whole : Whole s)
      (added : st.bt.container.addToLevelZero dir path = .ok c) :
      Step st (.flush s)
        { bt := { st.bt with container := c, dir := dir }, flushed := st.flushed ++ [s] }
  | notified {st : Lsm} {m : Merging} {fuel : ℕ} {referenced : Sst.Segment → Bool}
      {bt' : Sst.CompactionBt}
      (returned : (Sst.CompactionBt.notified m.merge fuel referenced).run st.bt = .ok () bt') :
      Step st (.notified m) { st with bt := bt' }
  | timedOut {st : Lsm} {m : Merging} {fuel : ℕ} {referenced : Sst.Segment → Bool}
      {bt' : Sst.CompactionBt}
      (returned : (Sst.CompactionBt.timedOut m.merge fuel referenced).run st.bt = .ok () bt') :
      Step st (.timedOut m referenced) { st with bt := bt' }
  | notifiedFails {st : Lsm} {m : Merging} {fuel : ℕ} {referenced : Sst.Segment → Bool}
      {bt' : Sst.CompactionBt} {e : Fault}
      (failed : (Sst.CompactionBt.notified m.merge fuel referenced).run st.bt = .error e bt') :
      Step st .failed { st with bt := bt' }
  | timedOutFails {st : Lsm} {m : Merging} {fuel : ℕ} {referenced : Sst.Segment → Bool}
      {bt' : Sst.CompactionBt} {e : Fault}
      (failed : (Sst.CompactionBt.timedOut m.merge fuel referenced).run st.bt = .error e bt') :
      Step st .failed { st with bt := bt' }

/-- A flush brings versions that are newer than all that were flushed before. A compaction selects
all segments of the level that it takes out, and its merges are orderly. -/
def Clean (st : Lsm) : Action → Prop
  | .flush s => NewerThan SsTableEntry.key SsTableEntry.sequenceNumber (entriesOf s)
      (allEntries st.flushed)
  | .notified m => ∀ chosen, st.bt.container.levelZero.segmentsToMerge = .ok chosen →
      (∀ s ∈ st.bt.container.levelZero.segments, s ∈ chosen) ∧
        OrderlyFrom m.merge (startingWith st.bt chosen)
  | .timedOut m referenced => ∀ front first behind chosen,
      StartsAt st.bt front first behind chosen → (∀ s ∈ first.segments, s ∈ chosen) ∧
        ∀ bt, (Sst.CompactionBt.removeSegmentFiles referenced).run st.bt = .ok () bt →
          OrderlyFrom m.merge ⟨behind, chosen, first.targetSize, first.levelNumber + 1, bt⟩
  | .failed => True

/-- Every key is answered with its newest version among all that were ever flushed. -/
def AnswersNewest (st : Lsm) : Prop :=
  ∀ key, ∃ r, st.bt.container.get key = .ok r ∧ Newest (allEntries st.flushed) key r

end Lsm

end Rkvs.Interface

import Rkvs.Interface.Cascade
import Rkvs.Interface.LosslessMerge
import Mathlib.Logic.Relation

/-!
# Whether a compaction ends

The loop of a compaction goes on as long as the level that it merges into is then over its target.
A new level gets its target from the level that the container had last, so all new levels get the
same one.
-/

set_option autoImplicit false

namespace Rkvs.Interface

open Rkvs.Library Rkvs.Model Relation

/-- What the loop of a compaction goes on with. -/
structure Compacting where
  levels : List Sst.PartitionedLevel
  chosen : List Sst.Segment
  target : ℕ
  number : ℕ
  bt : Sst.CompactionBt

/-- The target of a new level. -/
def Compacting.newTarget (c : Compacting) : ℕ := c.target * c.bt.levelSizeFactor

/-- The level that a round merges into. -/
def Compacting.next (c : Compacting) : Sst.PartitionedLevel :=
  c.levels.headD (.new c.newTarget c.number)

/-- A compaction from level zero starts with the segments that are selected there. -/
def startingWith (bt : Sst.CompactionBt) (chosen : List Sst.Segment) : Compacting :=
  ⟨bt.container.partitionedLevels, chosen, bt.container.levelZero.targetSize, 1, bt⟩

section
variable (merge : Sst.Merge)

/-- A round after which the level is over its target.
SOURCE: compaction.rs:52-81 -/
inductive GoesOn : Compacting → Compacting → Prop
  | round {c : Compacting} {newLevel : Sst.PartitionedLevel} {chosen' : List Sst.Segment}
      {target' : ℕ} {mid : Sst.CompactionBt}
      (round : (Sst.CompactionBt.compactRound merge c.levels c.chosen c.target c.number).run c.bt =
        .ok (newLevel, target') mid)
      (counted : c.number + 1 < 2 ^ 64)
      (exceeds : newLevel.exceedsTargetSize = .ok true)
      (selected : newLevel.segmentsToMerge = .ok chosen') :
      GoesOn c ⟨c.levels.tail, chosen', target', c.number + 1, mid⟩

/-- The merge of a round and the selection after it return. -/
def RoundReturns (c : Compacting) : Prop :=
  ∃ newLevel deleted dir chosen', (merge c.next c.chosen).run c.bt.dir =
    .ok (newLevel, deleted) dir ∧ newLevel.segmentsToMerge = .ok chosen'

/-- The selection in level zero returns, and the merges and selections of all rounds that come to a
level with a number below `bound`. -/
def CallsReturn (bound : ℕ) (bt : Sst.CompactionBt) : Prop :=
  ∃ chosen, bt.container.levelZero.segmentsToMerge = .ok chosen ∧
    ∀ c, ReflTransGen (GoesOn merge) (startingWith bt chosen) c → c.number < bound →
      RoundReturns merge c

/-- The loop of a compaction from level zero runs finitely often. -/
def Ends (bt : Sst.CompactionBt) : Prop :=
  ∃ fuel res bt', (Sst.CompactionBt.compactFromLevelZero merge fuel).run bt = .ok res bt'

/-- A compaction from level zero has gone through all levels of the container, and is to create the
first new one. -/
def ReachesTop (bt : Sst.CompactionBt) (c : Compacting) : Prop :=
  ∃ chosen, bt.container.levelZero.segmentsToMerge = .ok chosen ∧
    ReflTransGen (GoesOn merge) (startingWith bt chosen) c ∧
    c.number = bt.container.partitionedLevels.length + 1

/-- The first new level has a target, and it or the second one is within it. -/
def TopFits (bt : Sst.CompactionBt) : Prop :=
  ∀ c, ReachesTop merge bt c → c.newTarget < 2 ^ 64 ∧
    ∀ c', GoesOn merge c c' → ∀ second target' bt',
      (Sst.CompactionBt.compactRound merge c'.levels c'.chosen c'.target c'.number).run c'.bt =
        .ok (second, target') bt' → second.exceedsTargetSize = .ok false

end

/-- No file has the name of a segment of a level with one of the numbers from `n` on. -/
def NoFilesFrom (n : ℕ) (d : Dir) : Prop :=
  ∀ m ≥ n, ∀ k path, Sst.Segment.determineSegmentFilename m k = .ok path → path ∉ d.names

/-- What a compaction merges into the first new level can be merged in turn, and no files are there
from new levels that were given up. -/
def OrderlyTop (merge : Sst.Merge) (bt : Sst.CompactionBt) : Prop :=
  ∀ c, ReachesTop merge bt c →
    Mergeable c.chosen ∧ MergesInTurn c.chosen ∧ NoFilesFrom c.number c.bt.dir

end Rkvs.Interface

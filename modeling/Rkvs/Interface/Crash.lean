import Rkvs.Interface.Recovery

/-!
# A crash after a merge

The files of a merge of level-zero segments are written, and some of the segments that it has read
are still there when the process stops. What a restart then finds must be what was there before.
-/

set_option autoImplicit false

namespace Rkvs.Interface

open Rkvs.Library Rkvs.Model

/-- What a merge into the level has written: newest-wins unions, in new files of the level. -/
structure WrittenSegments (level : Sst.PartitionedLevel) (ins out : List Sst.Segment)
    (dir dir' : Dir) : Prop where
  merged : MergedFiles ins out
  levelNumber : ∀ s ∈ out, s.levelNumber = level.levelNumber
  number : ∀ s ∈ out, level.highestSegmentNumber < s.number
  opened : ∀ s ∈ out, Sst.Segment.fromFile dir' s.filepath = .ok (.ok s)
  names : ∀ name, name ∈ dir'.names ↔ name ∈ dir.names ∨ ∃ s ∈ out, s.filepath = name
  content : ∀ name, (∀ s ∈ out, s.filepath ≠ name) → dir'.content name = dir.content name

/-- The segments `chosen` were merged into the level: `new` was written and `deleted` is not needed
any more. -/
structure MergedInto
    (mergeAndWrite : Sst.PartitionedLevel → List Sst.Segment → EStateM Fault Dir (List Sst.Segment))
    (level : Sst.PartitionedLevel) (chosen new deleted : List Sst.Segment) (dir dir' : Dir) :
    Prop where
  merges : ∃ level', (level.merge mergeAndWrite chosen).run dir = .ok (level', deleted) dir'
  writes : (mergeAndWrite level deleted).run dir = .ok new dir'
  written : WrittenSegments level deleted new dir dir'

/-- The level is one of the container or a new one behind all others. -/
def IntoLevel (c : Sst.LevelContainer) (level : Sst.PartitionedLevel) : Prop :=
  level ∈ c.partitionedLevels ∨ level.segments = [] ∧ 0 < level.levelNumber ∧
    ∀ m ∈ c.partitionedLevels, m.levelNumber < level.levelNumber

/-- Files of the segments, and no others, are gone. -/
structure SomeGone (segments : List Sst.Segment) (dir dir' : Dir) : Prop where
  kept : ∀ name ∈ dir'.names, name ∈ dir.names
  gone : ∀ name ∈ dir.names, name ∉ dir'.names → ∃ s ∈ segments, s.filepath = name
  content : ∀ name ∈ dir'.names, dir'.content name = dir.content name

/-- A restart that returns answers as the container did. -/
def RestartKeeps (c : Sst.LevelContainer) (dir : Dir) (levelZeroTargetSize levelSizeFactor : ℕ) :
    Prop :=
  ∀ merge, MergesNewest merge → ∀ sparsity fuel c' dir', (Sst.LevelContainer.fromDir
    levelZeroTargetSize levelSizeFactor sparsity merge fuel).run dir = .ok c' dir' →
      ∀ key, c'.get key = c.get key

/-- The segments of which the files are there. -/
def remaining (dir : Dir) (segments : List Sst.Segment) : List Sst.Segment :=
  segments.filter fun s => s.filepath ∈ dir.names

/-- The answer of a level with merged files beside segments that remain: a segment in whose range
the key is comes before the merged files. -/
def answerBeside (segments new : List Sst.Segment) (key : String) : Option SsTableEntry :=
  match segments.find? fun s => s.firstKey ≤ key ∧ key ≤ s.lastKey with
  | some s => entryFor (entriesOf s) key
  | none => entryFor (allEntries new) key

/-- What remains of level zero, in the order of the numbers. -/
def remainingLevelZero (c : Sst.LevelContainer) (dir : Dir) : Sst.OverlappingLevel :=
  ⟨(remaining dir c.levelZero.segments).mergeSort fun s t => s.number ≤ t.number,
    c.levelZero.targetSize⟩

/-- What the levels answer, with merged files beside what remains of `level`. -/
def levelsAnswer (c : Sst.LevelContainer) (level : Sst.PartitionedLevel) (new : List Sst.Segment)
    (dir : Dir) (key : String) : Option SsTableEntry :=
  let front := c.partitionedLevels.filter fun m => m.levelNumber < level.levelNumber
  let behind := c.partitionedLevels.filter fun m => level.levelNumber < m.levelNumber
  (lookupLevels key front).or ((answerBeside (remaining dir level.segments) new key).or
    (lookupLevels key behind))

/-- Every entry that level zero answers with is what its remaining segments answer with, or none
of them has the key and it is what the levels answer. -/
def StillAnswered (c : Sst.LevelContainer) (level : Sst.PartitionedLevel) (new : List Sst.Segment)
    (dir : Dir) : Prop :=
  ∀ key e, c.levelZero.get key = .ok (some e) →
    (remainingLevelZero c dir).get key = .ok (some e) ∨
      (remainingLevelZero c dir).get key = .ok none ∧ levelsAnswer c level new dir key = some e

end Rkvs.Interface

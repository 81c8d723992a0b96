import Rkvs.Interface.RestartFiles
import Rkvs.Library.LevelOrder
import Rkvs.Library.Run

/-!
# The order of levels in a directory

Lookups go through the levels in the order of their numbers and trust that a lower level has newer
versions. A restart merges level-zero segments, and what is too much in the other levels, into the
next level. Every such merge has a place for what it moves, or loses the order.
-/

set_option autoImplicit false

namespace Rkvs.Interface

open Rkvs.Library Rkvs.Model

/-- For every key, each version in a segment file is newer than those in files of higher levels. -/
def OrderedFiles (dir : Dir) : Prop :=
  OrderedLevels Sst.Segment.levelNumber entriesOf SsTableEntry.key SsTableEntry.sequenceNumber
    {s | s ∈ segmentsIn dir}

/-- What a merge has written into a level: the segments that it returns, in files where no complete
segment was. -/
structure WroteNew (level : Sst.PartitionedLevel) (d : Dir) (out : List Sst.Segment) (d' : Dir) :
    Prop where
  level : ∀ s ∈ out, s.levelNumber = level.levelNumber
  opened : ∀ s ∈ out, Sst.Segment.fromFile d' s.filepath = .ok (.ok s)
  fresh : ∀ s ∈ out, ∀ t ∈ segmentsIn d, s.filepath ≠ t.filepath
  others : ∀ name, (∀ s ∈ out, s.filepath ≠ name) →
    (name ∈ d'.names ↔ name ∈ d.names) ∧ d'.content name = d.content name

/-- `merge_and_write` returns newest-wins unions and writes only the segments that it returns. -/
def MergesIntoFiles
    (mergeAndWrite : Sst.PartitionedLevel → List Sst.Segment → EStateM Fault Dir (List Sst.Segment)) :
    Prop :=
  WritesNewest mergeAndWrite ∧ ∀ level ins d out d', (∀ s ∈ ins, Whole s) →
    (mergeAndWrite level ins).run d = .ok out d' → WroteNew level d out d'

/-- Level zero as a restart finds it.
SOURCE: level.rs:118-122, 158-162 -/
def levelZeroIn (dir : Dir) (levelZeroTargetSize : ℕ) : Sst.OverlappingLevel :=
  let segments := (segmentsIn dir).mergeSort fun s t => s.levelNumber ≤ t.levelNumber
  ⟨(segments.filter fun s => s.levelNumber = 0).mergeSort fun s t => s.number ≤ t.number,
    levelZeroTargetSize⟩

/-- What is not selected in level zero is newer than what is. -/
def OldestSelected (dir : Dir) (levelZeroTargetSize : ℕ) : Prop :=
  ∀ chosen, (levelZeroIn dir levelZeroTargetSize).segmentsToMerge = .ok chosen →
    ∀ s ∈ segmentsIn dir, s.levelNumber = 0 → s ∉ chosen → ∀ t ∈ chosen,
      NewerThan SsTableEntry.key SsTableEntry.sequenceNumber (entriesOf s) (entriesOf t)

/-- No number of a level is left out.
SOURCE: level.rs:114-116, 169-170 -/
def NoGaps (dir : Dir) : Prop :=
  ∀ s ∈ segmentsIn dir, ∀ n, 0 < n → n < s.levelNumber → ∃ t ∈ segmentsIn dir, t.levelNumber = n

/-! ## The merges of a restart -/

/-- Where a restart is in its two loops over the levels: those that it has found and not come to,
those behind it, and the segments that it takes to the next one. -/
structure Restarting where
  levels : List Sst.PartitionedLevel
  recovered : List Sst.PartitionedLevel
  chosen : List Sst.Segment
  dir : Dir

/-- One round of the loops, at the level that the segments are taken to.
SOURCE: level.rs:189-217 -/
inductive RestartStep (levelZeroTargetSize levelSizeFactor : ℕ) (merge : Sst.Merge) :
    Restarting → Sst.PartitionedLevel → Restarting → Prop
  | nothing {level : Sst.PartitionedLevel} {levels recovered : List Sst.PartitionedLevel}
      {chosen' : List Sst.Segment} {d : Dir} (selects : level.segmentsToMerge = .ok chosen') :
      RestartStep levelZeroTargetSize levelSizeFactor merge ⟨level :: levels, recovered, [], d⟩
        level ⟨levels, recovered ++ [level], chosen', d⟩
  | found {level newLevel : Sst.PartitionedLevel} {levels recovered : List Sst.PartitionedLevel}
      {chosen chosen' : List Sst.Segment} {d d' : Dir} (selected : chosen ≠ [])
      (merged : (Sst.LevelContainer.mergeAndRemove merge level chosen).run d = .ok newLevel d')
      (selects : newLevel.segmentsToMerge = .ok chosen') :
      RestartStep levelZeroTargetSize levelSizeFactor merge ⟨level :: levels, recovered, chosen, d⟩
        level ⟨levels, recovered ++ [newLevel], chosen', d'⟩
  | added {targetSize : ℕ} {newLevel : Sst.PartitionedLevel}
      {recovered : List Sst.PartitionedLevel} {chosen chosen' : List Sst.Segment} {d d' : Dir}
      (selected : chosen ≠ [])
      (target : Sst.LevelContainer.levelTargetSize levelZeroTargetSize levelSizeFactor
        (recovered.length + 1) = .ok targetSize)
      (merged : (Sst.LevelContainer.mergeAndRemove merge
        (.new targetSize (recovered.length + 1)) chosen).run d = .ok newLevel d')
      (selects : newLevel.segmentsToMerge = .ok chosen') :
      RestartStep levelZeroTargetSize levelSizeFactor merge ⟨[], recovered, chosen, d⟩
        (.new targetSize (recovered.length + 1)) ⟨[], recovered ++ [newLevel], chosen', d'⟩

/-- The rounds of a restart in a directory, from the files that it opens to those that it leaves.
SOURCE: level.rs:81-222 -/
inductive RestartRun (levelZeroTargetSize levelSizeFactor sparsity : ℕ) (merge : Sst.Merge)
    (dir : Dir) : List (Restarting × Sst.PartitionedLevel) → Dir → Prop
  | empty {d : Dir} (opens : (Sst.LevelContainer.openSegments dir.names).run dir = .ok [] d) :
      RestartRun levelZeroTargetSize levelSizeFactor sparsity merge dir [] d
  | merges {segments levelZeroSegments chosen : List Sst.Segment}
      {levels recovered : List Sst.PartitionedLevel} {d d' : Dir}
      {steps : List (Restarting × Sst.PartitionedLevel)}
      (opens : (Sst.LevelContainer.openSegments dir.names).run dir = .ok segments d)
      (groups : Sst.LevelContainer.groupLoop levelZeroTargetSize levelSizeFactor sparsity
        (segments.mergeSort fun s t => s.levelNumber ≤ t.levelNumber) [] [] [] =
          .ok (levelZeroSegments, levels))
      (checks : Sst.LevelContainer.checkMerges levels = .ok ())
      (selects : (Sst.OverlappingLevel.mk
        (levelZeroSegments.mergeSort fun s t => s.number ≤ t.number)
          levelZeroTargetSize).segmentsToMerge = .ok chosen)
      (run : Run (RestartStep levelZeroTargetSize levelSizeFactor merge) ⟨levels, [], chosen, d⟩
        steps ⟨[], recovered, [], d'⟩) :
      RestartRun levelZeroTargetSize levelSizeFactor sparsity merge dir steps d'

/-- A merge into the level is in its place. What it leaves on lower levels is newer than all that it
reads, and what it leaves on higher levels is older than the newest of the key that it reads. -/
def InPlace (st : Restarting) (level : Sst.PartitionedLevel) : Prop :=
  MovesInPlace Sst.Segment.levelNumber entriesOf SsTableEntry.key SsTableEntry.sequenceNumber
    {s | s ∈ segmentsIn st.dir} level.levelNumber
    {s | s ∈ touchedBy level st.chosen ++ st.chosen}

end Rkvs.Interface

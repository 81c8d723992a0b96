import Rkvs.Model.SstSegment

/-!
# Levels of the SSTable

`sstable/level.rs` and `SsTable::get`: level zero, whose segments may overlap, the partitioned
levels behind it, merges into them, and recovery from a directory. What `merge_and_write` writes
is a parameter of `merge`, and a merge is a parameter of what uses it. `SsTableLevel` hands on
everything to the level it wraps and is left out.
-/

set_option autoImplicit false

namespace Rkvs.Model.Sst

open Rkvs.Library

/-- SOURCE: level.rs:32-35 -/
structure OverlappingLevel where
  segments : List Segment
  targetSize : ℕ
  deriving DecidableEq, Repr

/-- SOURCE: level.rs:36-41 -/
structure PartitionedLevel where
  segments : List Segment
  targetSize : ℕ
  indexSparsityFactor : ℕ
  levelNumber : ℕ
  deriving DecidableEq, Repr

/-- SOURCE: level.rs:50-53 -/
structure LevelContainer where
  levelZero : OverlappingLevel
  partitionedLevels : List PartitionedLevel
  deriving DecidableEq, Repr

/-! ## Sizes and selection -/

/-- The sum of the sizes of segments. -/
def totalSize (segments : List Segment) : Exec ℕ :=
  segments.foldlM (fun size segment => checkedAdd 64 size segment.size) 0

/-- The highest number of segments. -/
def highestNumber (segments : List Segment) : ℕ :=
  segments.foldl (fun res segment => if segment.number > res then segment.number else res) 0

/-- The highest sequence number of segments.
SOURCE: level.rs:801-809, 844-852 -/
def highestSequenceNo (segments : List Segment) : ℕ :=
  segments.foldl (fun res segment =>
    if segment.highestSequenceNo > res then segment.highestSequenceNo else res) 0

/-- One round of the selection over all segments, with what is left of the size and the number
that is looked for.
SOURCE: level.rs:303-309 -/
def selectRound : List Segment → ℕ → ℕ → List Segment → Exec (ℕ × ℕ × List Segment)
  | [], size, currSegmentNumber, selected => .ok (size, currSegmentNumber, selected)
  | segment :: segments, size, currSegmentNumber, selected =>
    if segment.number = currSegmentNumber then do
      let size ← checkedSub size segment.size
      let currSegmentNumber ← checkedSub currSegmentNumber 1
      selectRound segments size currSegmentNumber (selected ++ [segment])
    else do
      let currSegmentNumber ← checkedSub currSegmentNumber 1
      selectRound segments size currSegmentNumber selected

/-- The selection. A round over at least one segment lowers the number, so `fuel` of more than
the number is never used up.
SOURCE: level.rs:302-310 -/
def selectLoop (segments : List Segment) (targetSize : ℕ) :
    ℕ → ℕ → ℕ → List Segment → Exec (List Segment)
  | 0, _, _, _ => .error .panic
  | fuel + 1, size, currSegmentNumber, selected =>
    if size > targetSize then do
      let (size, currSegmentNumber, selected) ←
        selectRound segments size currSegmentNumber selected
      selectLoop segments targetSize fuel size currSegmentNumber selected
    else .ok selected

/-- What both levels do to select segments for a merge.
SOURCE: level.rs:298-312, 353-367 -/
def selectForMerge (segments : List Segment) (targetSize : ℕ) : Exec (List Segment) := do
  let size ← totalSize segments
  let number := highestNumber segments
  selectLoop segments targetSize (number + 2) size number []

/-- SOURCE: level.rs:314-317, 369-372 -/
def exceeds (segments : List Segment) (targetSize : ℕ) : Exec Bool := do
  return decide ((← totalSize segments) > targetSize)

namespace OverlappingLevel

/-- SOURCE: level.rs:278-296 -/
def get (level : OverlappingLevel) (key : String) : Exec (Option SsTableEntry) :=
  level.segments.foldlM (fun currEntry segment => do
    match ← segment.get key with
    | none => return currEntry
    | some entry =>
      match currEntry with
      | none => return some entry
      | some currE =>
        if currE.sequenceNumber > entry.sequenceNumber then return some currE
        else return some entry) none

/-- SOURCE: level.rs:298-312 -/
def segmentsToMerge (level : OverlappingLevel) : Exec (List Segment) :=
  selectForMerge level.segments level.targetSize

/-- SOURCE: level.rs:314-317 -/
def exceedsTargetSize (level : OverlappingLevel) : Exec Bool :=
  exceeds level.segments level.targetSize

/-- SOURCE: level.rs:319-327 -/
def highestSegmentNumber (level : OverlappingLevel) : ℕ := highestNumber level.segments

end OverlappingLevel

namespace PartitionedLevel

/-- SOURCE: level.rs:790-799 -/
def new (targetSize levelNumber : ℕ) : PartitionedLevel := ⟨[], targetSize, 1, levelNumber⟩

/-- SOURCE: level.rs:415-426 -/
def findContainingSegment (level : PartitionedLevel) (key : String) : Option Segment :=
  level.segments.find? fun segment => segment.firstKey ≤ key ∧ key ≤ segment.lastKey

/-- SOURCE: level.rs:346-351 -/
def get (level : PartitionedLevel) (key : String) : Exec (Option SsTableEntry) :=
  match level.findContainingSegment key with
  | none => .ok none
  | some segment => segment.get key

/-- SOURCE: level.rs:353-367 -/
def segmentsToMerge (level : PartitionedLevel) : Exec (List Segment) :=
  selectForMerge level.segments level.targetSize

/-- SOURCE: level.rs:369-372 -/
def exceedsTargetSize (level : PartitionedLevel) : Exec Bool :=
  exceeds level.segments level.targetSize

/-- SOURCE: level.rs:374-382, 428-436 -/
def highestSegmentNumber (level : PartitionedLevel) : ℕ := highestNumber level.segments

/-- The merge of segments into a level. It returns the level that takes the place of `level`, and
the segments to delete.
SOURCE: level.rs:441-477 -/
def merge (mergeAndWrite : PartitionedLevel → List Segment → EStateM Fault Dir (List Segment))
    (level : PartitionedLevel) (incomingSegments : List Segment) :
    EStateM Fault Dir (PartitionedLevel × List Segment) := do
  let touched := level.segments.filter fun segment =>
    incomingSegments.any fun incoming => segment.overlaps incoming
  let untouchedSegments := level.segments.filter fun segment =>
    !incomingSegments.any fun incoming => segment.overlaps incoming
  let segments := touched ++ incomingSegments
  let newSegments ← mergeAndWrite level segments
  let newSegments := (newSegments ++ untouchedSegments).mergeSort
    fun s t => s.firstKey ≤ t.firstKey
  return ({ level with segments := newSegments }, segments)

end PartitionedLevel

namespace LevelContainer

/-- SOURCE: level.rs:62-72 -/
def new (levelZeroTargetSize : ℕ) : LevelContainer := ⟨⟨[], levelZeroTargetSize⟩, []⟩

/-- The lookup in the partitioned levels, in their order.
SOURCE: sstable.rs:73-83 -/
def getFromLevels (key : String) : List PartitionedLevel → Exec (Option SsTableEntry)
  | [] => .ok none
  | level :: levels => do
    match ← level.get key with
    | some entry => return some entry
    | none => getFromLevels key levels

/-- `SsTable::get` on the levels that it has read under the lock.
SOURCE: sstable.rs:61-86 -/
def get (container : LevelContainer) (key : String) : Exec (Option SsTableEntry) := do
  match ← container.levelZero.get key with
  | some entry => return some entry
  | none => getFromLevels key container.partitionedLevels

/-- SOURCE: level.rs:232-237 -/
def swapPartitionedLevels (container : LevelContainer)
    (newPartitionedLevels : List PartitionedLevel) : LevelContainer :=
  { container with partitionedLevels := newPartitionedLevels }

/-- SOURCE: level.rs:239-246 -/
def swapAllLevels (container : LevelContainer) (newPartitionedLevels : List PartitionedLevel) :
    LevelContainer :=
  ⟨⟨[], container.levelZero.targetSize⟩, newPartitionedLevels⟩

/-- SOURCE: level.rs:248-267 -/
def addToLevelZero (container : LevelContainer) (dir : Dir) (path : String) :
    Exec LevelContainer := do
  match ← Segment.fromFile dir path with
  | .ok segment => return { container with
      levelZero := { container.levelZero with
        segments := container.levelZero.segments ++ [segment] } }
  | .error .corrupted => .error .panic
  | .error (.ioError kind) => .error (.io kind)

/-- `SsTable::highest_sequence_number` on the levels that it has read under the lock.
SOURCE: sstable.rs:107-128 -/
def highestSequenceNumber (container : LevelContainer) : ℕ :=
  let segmentNo := Sst.highestSequenceNo container.levelZero.segments
  let res := if segmentNo > 0 then segmentNo else 0
  container.partitionedLevels.foldl (fun res level =>
    if Sst.highestSequenceNo level.segments > res then Sst.highestSequenceNo level.segments
    else res) res

/-- SOURCE: level.rs:269-271 -/
def doCompact (container : LevelContainer) : Exec Bool := container.levelZero.exceedsTargetSize

end LevelContainer

end Rkvs.Model.Sst

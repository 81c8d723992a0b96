import Rkvs.Model.SstLevel

/-!
# Merging segments

`merge_sort` and `PartitionedLevel::merge_and_write`: the entries of read buffers are merged up to
the smallest of their last keys, the result is written to new segments, and the buffers are filled
again. A reference to a buffer is the place of the buffer. A loop that takes more rounds than it is
given has not returned.
-/

set_option autoImplicit false

namespace Rkvs.Model.Sst

open Rkvs.Library

/-! ## The map of read buffers -/

/-- A map from indices to references. -/
abbrev ReadBufs := List (ℕ × ℕ)

/-- The order in which a map is iterated over the n-th time. -/
structure IterationOrder where
  iter : ℕ → ReadBufs → ReadBufs
  perm : ∀ n readBufs, (iter n readBufs).Perm readBufs

/-- What a merge does with the read buffers. -/
abbrev OnBufs := EStateM Fault (List SegmentReadBuf)

/-- The first entry of a buffer. -/
def frontAt (bufs : List SegmentReadBuf) (place : ℕ) : Option SsTableEntry :=
  bufs[place]?.bind SegmentReadBuf.front

/-- The last entry of a buffer. -/
def backAt (bufs : List SegmentReadBuf) (place : ℕ) : Option SsTableEntry :=
  bufs[place]?.bind SegmentReadBuf.back

/-- Takes the first entry of a buffer. -/
def popFrontAt (place : ℕ) : OnBufs (Option SsTableEntry) := do
  let buf ← liftExec (unwrap (← get)[place]?)
  let (entry, buf) ← liftExec buf.popFront
  modify fun bufs => bufs.set place buf
  return entry

namespace ReadBufs

/-- The key at the front of the buffer of an index. -/
def frontKey (readBufs : ReadBufs) (bufs : List SegmentReadBuf) (idx : ℕ) : Exec String := do
  let place ← unwrap (readBufs.lookup idx)
  return (← unwrap (frontAt bufs place)).key

/-- Without the buffer of an index. -/
def remove (readBufs : ReadBufs) (idx : ℕ) : ReadBufs := readBufs.filter fun r => r.1 ≠ idx

/-- With a buffer for an index. -/
def insert (readBufs : ReadBufs) (idx place : ℕ) : ReadBufs := (idx, place) :: readBufs.remove idx

end ReadBufs

/-! ## The first scan -/

/-- What the scan of the buffers finds: the smallest last key, and the groups at the smallest two
first keys. -/
structure Scan where
  smallestFinalKey : String
  currIndices : List ℕ
  nextIndices : List ℕ
  deriving DecidableEq, Repr

/-- SOURCE: level.rs:573-612 -/
def Scan.step (bufs : List SegmentReadBuf) (readBufs : ReadBufs) (s : Scan) (r : ℕ × ℕ) :
    Exec Scan := do
  let back ← unwrap (backAt bufs r.2)
  let smallestFinalKey :=
    if s.smallestFinalKey = "" ∨ back.key < s.smallestFinalKey then back.key
    else s.smallestFinalKey
  let bufKey := (← unwrap (frontAt bufs r.2)).key
  match s.currIndices.head? with
  | none => return ⟨smallestFinalKey, s.currIndices ++ [r.1], s.nextIndices⟩
  | some currIdx => do
    let currKey ← readBufs.frontKey bufs currIdx
    if bufKey ≤ currKey then
      if currKey ≠ bufKey then return ⟨smallestFinalKey, [r.1], s.currIndices⟩
      else return ⟨smallestFinalKey, s.currIndices ++ [r.1], s.nextIndices⟩
    else if bufKey ≤ smallestFinalKey then
      match s.nextIndices.head? with
      | none => return ⟨smallestFinalKey, s.currIndices, s.nextIndices ++ [r.1]⟩
      | some nextIdx => do
        let nextKey ← readBufs.frontKey bufs nextIdx
        let nextIndices := if bufKey < nextKey then [] else s.nextIndices
        return ⟨smallestFinalKey, s.currIndices,
          if bufKey ≤ nextKey then nextIndices ++ [r.1] else nextIndices⟩
    else return ⟨smallestFinalKey, s.currIndices, s.nextIndices⟩

/-- The buffers that have something to merge.
SOURCE: level.rs:613 -/
def retainBufs (bufs : List SegmentReadBuf) (smallestFinalKey : String) : ReadBufs → Exec ReadBufs
  | [] => .ok []
  | r :: readBufs => do
    let front ← unwrap (frontAt bufs r.2)
    let rest ← retainBufs bufs smallestFinalKey readBufs
    return if front.key ≤ smallestFinalKey then r :: rest else rest

/-! ## One round of the loop -/

/-- The buffers of some indices, and the map without them.
SOURCE: level.rs:621-629 -/
def takeBufs : List ℕ → ReadBufs → List ℕ × ReadBufs
  | [], readBufs => ([], readBufs)
  | idx :: indices, readBufs =>
    match readBufs.lookup idx with
    | some place =>
      let (bufs, rest) := takeBufs indices (readBufs.remove idx)
      (place :: bufs, rest)
    | none => takeBufs indices readBufs

/-- SOURCE: level.rs:630-636 -/
def nextKeyOf (bufs : List SegmentReadBuf) (readBufs : ReadBufs) (nextIndices : List ℕ) :
    Exec (Option String) :=
  match nextIndices.head? with
  | none => .ok none
  | some idx => do
    let place ← unwrap (readBufs.lookup idx)
    return (frontAt bufs place).map SsTableEntry.key

/-- Whether a key belongs to the round.
SOURCE: level.rs:640-643, 685-688 -/
def inRound (smallestFinalKey : String) (nextKey : Option String) (key : String) : Bool :=
  match nextKey with
  | none => key ≤ smallestFinalKey
  | some nkey => key < nkey

/-- The entries of a buffer that belong to the round.
SOURCE: level.rs:638-649 -/
def drainRound (smallestFinalKey : String) (nextKey : Option String) (buf : ℕ) :
    ℕ → List SsTableEntry → OnBufs (List SsTableEntry)
  | 0, _ => throw .panic
  | fuel + 1, res => do
    match frontAt (← get) buf with
    | none => return res
    | some entry =>
      if inRound smallestFinalKey nextKey entry.key then do
        let popped ← liftExec (unwrap (← popFrontAt buf))
        drainRound smallestFinalKey nextKey buf fuel (res ++ [popped])
      else return res

/-- The first entries of the buffers are taken, and the newest one is kept.
SOURCE: level.rs:652-657 -/
def popNewest : List ℕ → SsTableEntry → OnBufs SsTableEntry
  | [], currEntry => return currEntry
  | buf :: bufs, currEntry => do
    let entry ← liftExec (unwrap (← popFrontAt buf))
    popNewest bufs (if entry.sequenceNumber > currEntry.sequenceNumber then entry else currEntry)

/-- Whether an entry takes the place of the potential next one.
SOURCE: level.rs:664-671 -/
def replaces (smallestFinalKey : String) (entry : SsTableEntry) : Option SsTableEntry → Bool
  | some nentry => entry.key < nentry.key ∨
      entry.key = nentry.key ∧ entry.sequenceNumber > nentry.sequenceNumber
  | none => entry.key ≤ smallestFinalKey

/-- SOURCE: level.rs:660-679 -/
def potNextEntry (bufs : List SegmentReadBuf) (smallestFinalKey : String) (currBufs : List ℕ) :
    Option SsTableEntry :=
  currBufs.foldl (fun pot buf =>
    match frontAt bufs buf with
    | none => pot
    | some entry => if replaces smallestFinalKey entry pot then some entry else pot) none

/-- SOURCE: level.rs:690-699 -/
def popKey (key : String) : List ℕ → OnBufs Unit
  | [] => return ()
  | buf :: bufs => do
    match frontAt (← get) buf with
    | none => popKey key bufs
    | some e => do
      if key = e.key then
        let _ ← popFrontAt buf
      popKey key bufs

/-- The entries of several buffers with the same first key.
SOURCE: level.rs:659-704 -/
def mergeRest (smallestFinalKey : String) (nextKey : Option String) (currBufs : List ℕ) :
    ℕ → List SsTableEntry → OnBufs (List SsTableEntry)
  | 0, _ => throw .panic
  | fuel + 1, res => do
    match potNextEntry (← get) smallestFinalKey currBufs with
    | none => return res
    | some entry =>
      if inRound smallestFinalKey nextKey entry.key then do
        popKey entry.key currBufs
        mergeRest smallestFinalKey nextKey currBufs fuel (res ++ [entry])
      else mergeRest smallestFinalKey nextKey currBufs fuel res

/-- SOURCE: level.rs:651-704 -/
def mergeSeveral (smallestFinalKey : String) (nextKey : Option String) (currBufs : List ℕ)
    (fuel : ℕ) (res : List SsTableEntry) : OnBufs (List SsTableEntry) := do
  let first ← liftExec (unwrap currBufs.head?)
  let currEntry ← liftExec (unwrap (frontAt (← get) first))
  let currEntry ← popNewest currBufs currEntry
  mergeRest smallestFinalKey nextKey currBufs fuel (res ++ [currEntry])

/-- The buffers of a round give up their entries. A single buffer is popped before, so that it is not
among those that may go back.
SOURCE: level.rs:637-704 -/
def mergeGroup (smallestFinalKey : String) (nextKey : Option String) (currBufs : List ℕ)
    (fuel : ℕ) (res : List SsTableEntry) : OnBufs (List SsTableEntry × List ℕ) :=
  match currBufs with
  | [currBuf] => do
    let res ← drainRound smallestFinalKey nextKey currBuf fuel res
    return (res, [])
  | _ => do
    let res ← mergeSeveral smallestFinalKey nextKey currBufs fuel res
    return (res, currBufs)

/-- Those of the buffers that have more to merge go back into the map.
SOURCE: level.rs:706-717 -/
def putBack (bufs : List SegmentReadBuf) (smallestFinalKey : String) (currIndices : List ℕ) :
    List ℕ → ℕ → ReadBufs → Exec ReadBufs
  | [], _, readBufs => .ok readBufs
  | buf :: currBufs, idx, readBufs =>
    match frontAt bufs buf with
    | none => putBack bufs smallestFinalKey currIndices currBufs (idx + 1) readBufs
    | some entry => do
      if entry.key ≤ smallestFinalKey then
        let index ← unwrap currIndices[idx]?
        putBack bufs smallestFinalKey currIndices currBufs (idx + 1) (readBufs.insert index buf)
      else putBack bufs smallestFinalKey currIndices currBufs (idx + 1) readBufs

/-- SOURCE: level.rs:724-742 -/
def nextStep (bufs : List SegmentReadBuf) (smallestFinalKey currKey : String)
    (next : Option String × List ℕ) (r : ℕ × ℕ) : Exec (Option String × List ℕ) := do
  let bufKey := (← unwrap (frontAt bufs r.2)).key
  let push := match next.1 with
    | none => decide (currKey < bufKey) && decide (bufKey ≤ smallestFinalKey)
    | some key => decide (currKey < bufKey) && decide (bufKey ≤ key)
  let replaceAndClear := match next.1 with
    | none => decide (currKey < bufKey) && decide (bufKey ≤ smallestFinalKey)
    | some key => decide (currKey < bufKey) && decide (bufKey < key)
  let nextKey := if replaceAndClear then some bufKey else next.1
  let nextIndices := if replaceAndClear then [] else next.2
  return (nextKey, if push then nextIndices ++ [r.1] else nextIndices)

/-- `round` is how often the map was iterated over before.
SOURCE: level.rs:719-744 -/
def findNext (order : IterationOrder) (round : ℕ) (bufs : List SegmentReadBuf)
    (smallestFinalKey : String) (readBufs : ReadBufs) (currIndices : List ℕ) : Exec (List ℕ) :=
  match currIndices.head? with
  | none => .ok []
  | some currIdx => do
    let currKey ← readBufs.frontKey bufs currIdx
    let (_, nextIndices) ←
      (order.iter round readBufs).foldlM (nextStep bufs smallestFinalKey currKey) (none, [])
    return nextIndices

/-- What the loop goes on with. -/
structure Merging where
  readBufs : ReadBufs
  currIndices : List ℕ
  nextIndices : List ℕ
  res : List SsTableEntry
  deriving DecidableEq, Repr

/-- SOURCE: level.rs:621-744 -/
def mergeRound (order : IterationOrder) (smallestFinalKey : String) (fuel round : ℕ)
    (s : Merging) : OnBufs Merging := do
  let (currBufs, readBufs) := takeBufs s.currIndices s.readBufs
  let nextKey ← liftExec (nextKeyOf (← get) readBufs s.nextIndices)
  let (res, currBufs) ← mergeGroup smallestFinalKey nextKey currBufs fuel s.res
  let readBufs ← liftExec (putBack (← get) smallestFinalKey s.currIndices currBufs 0 readBufs)
  let nextIndices ←
    liftExec (findNext order round (← get) smallestFinalKey readBufs s.nextIndices)
  return ⟨readBufs, s.nextIndices, nextIndices, res⟩

/-! ## The merge -/

/-- The loop of the merge, of which every inner loop takes less than `limit` rounds.
SOURCE: level.rs:620-745 -/
def mergeLoop (order : IterationOrder) (smallestFinalKey : String) (limit : ℕ) :
    ℕ → ℕ → Merging → OnBufs (List SsTableEntry)
  | 0, _, _ => throw .panic
  | fuel + 1, round, s => do
    if s.readBufs.isEmpty then return s.res
    else do
      let s ← mergeRound order smallestFinalKey limit round s
      mergeLoop order smallestFinalKey limit fuel (round + 1) s

/-- All entries of the only buffer.
SOURCE: level.rs:562-567 -/
def drainAll (buf : ℕ) : ℕ → List SsTableEntry → OnBufs (List SsTableEntry)
  | 0, _ => throw .panic
  | fuel + 1, res => do
    match ← popFrontAt buf with
    | none => return res
    | some entry => drainAll buf fuel (res ++ [entry])

/-- SOURCE: level.rs:558-747 -/
def mergeSort (order : IterationOrder) (fuel : ℕ) (readBufs : ReadBufs) :
    OnBufs (List SsTableEntry) := do
  if readBufs.isEmpty then return []
  else if readBufs.length = 1 then do
    let (_, buf) ← liftExec (unwrap (order.iter 0 readBufs).head?)
    drainAll buf fuel []
  else do
    let bufs ← get
    let scan ← liftExec ((order.iter 0 readBufs).foldlM (Scan.step bufs readBufs) ⟨"", [], []⟩)
    let readBufs ← liftExec (retainBufs bufs scan.smallestFinalKey readBufs)
    let nextIndices := scan.nextIndices.filter fun idx => (readBufs.lookup idx).isSome
    mergeLoop order scan.smallestFinalKey fuel fuel 1
      ⟨readBufs, scan.currIndices, nextIndices, []⟩

/-- The map of all buffers under their places.
SOURCE: level.rs:513-518 -/
def readBufRefs (bufs : List SegmentReadBuf) : ReadBufs :=
  (List.range bufs.length).map fun i => (i, i)

/-! ## Writing the merged entries -/

/-- SOURCE: level.rs:16 -/
def MERGE_BUF_MAX_TOTAL_SIZE : ℕ := 1024 * 1024 * 10

/-- A new segment, written up to a target size.
SOURCE: level/segment.rs:378-401 -/
def createSegment (targetSize levelNumber segmentNumber indexSparsityFactor : ℕ) :
    EStateM Fault Dir SegmentWriter := do
  let w ← SegmentWriter.createNewSegment levelNumber segmentNumber indexSparsityFactor
  return { w with targetSize := targetSize }

/-- A segment that was finished is opened.
SOURCE: level.rs:522-525 -/
def finishSegment (w : SegmentWriter) : EStateM Fault Dir (SegmentWriter × Segment) := do
  let w ← w.writeIndexAndFooter
  match ← liftExec (Segment.fromFile (← get) w.filepath) with
  | .ok segment => return (w, segment)
  | .error _ => throw .panic

/-- What `merge_and_write` writes with. -/
structure Output where
  segmentWriter : SegmentWriter
  newSegmentNumber : ℕ
  res : List Segment
  deriving DecidableEq, Repr

/-- SOURCE: level.rs:520-535 -/
def writeBuf (targetSize : ℕ) (level : PartitionedLevel) :
    List SsTableEntry → Output → EStateM Fault Dir Output
  | [], out => return out
  | entry :: entries, out => do
    if ← liftExec out.segmentWriter.reachedTargetSize then do
      let (_, newSegment) ← finishSegment out.segmentWriter
      let segmentWriter ← createSegment targetSize level.levelNumber out.newSegmentNumber
        level.indexSparsityFactor
      let newSegmentNumber ← liftExec (checkedAdd 64 out.newSegmentNumber 1)
      let segmentWriter ← segmentWriter.writeEntry entry
      writeBuf targetSize level entries ⟨segmentWriter, newSegmentNumber, out.res ++ [newSegment]⟩
    else do
      let segmentWriter ← out.segmentWriter.writeEntry entry
      writeBuf targetSize level entries { out with segmentWriter := segmentWriter }

/-- SOURCE: level.rs:504-510, 536-545 -/
def fillBufs (readBufs : List SegmentReadBuf) : Exec (List SegmentReadBuf) := do
  let readBufs ← readBufs.mapM SegmentReadBuf.fill
  return readBufs.filter fun buf => !buf.isEmpty

/-- The rounds between which the buffers are filled, each with an order of its own.
SOURCE: level.rs:512-546 -/
def mergeRounds (orders : ℕ → IterationOrder) (targetSize : ℕ) (level : PartitionedLevel)
    (limit : ℕ) : ℕ → List SegmentReadBuf → Output → EStateM Fault Dir Output
  | 0, _, _ => throw .panic
  | fuel + 1, readBufs, out => do
    if readBufs.isEmpty then return out
    else do
      match (mergeSort (orders fuel) limit (readBufRefs readBufs)).run readBufs with
      | .error e _ => throw e
      | .ok entries readBufs => do
        let out ← writeBuf targetSize level entries out
        let readBufs ← liftExec (fillBufs readBufs)
        mergeRounds orders targetSize level limit fuel readBufs out

/-- `targetSize` is the size that segments are written up to; the code uses `SEGMENT_SIZE`.
SOURCE: level.rs:479-555 -/
def mergeAndWriteTo (orders : ℕ → IterationOrder) (targetSize fuel : ℕ) (level : PartitionedLevel)
    (segments : List Segment) : EStateM Fault Dir (List Segment) := do
  if segments.isEmpty then return []
  else do
    let readBufLen ← liftExec (checkedAdd 64 (MERGE_BUF_MAX_TOTAL_SIZE / segments.length) 1)
    let readBufs := segments.map fun segment => SegmentReadBuf.new segment readBufLen
    let newSegmentNumber ← liftExec (checkedAdd 64 level.highestSegmentNumber 1)
    let segmentWriter ← createSegment targetSize level.levelNumber newSegmentNumber
      level.indexSparsityFactor
    let newSegmentNumber ← liftExec (checkedAdd 64 newSegmentNumber 1)
    let readBufs ← liftExec (fillBufs readBufs)
    let out ← mergeRounds orders targetSize level fuel fuel readBufs
      ⟨segmentWriter, newSegmentNumber, []⟩
    if out.segmentWriter.finished = false then do
      let (_, newSegment) ← finishSegment out.segmentWriter
      return out.res ++ [newSegment]
    else return out.res

/-- SOURCE: level.rs:479-555 -/
def mergeAndWrite (orders : ℕ → IterationOrder) (fuel : ℕ) :
    PartitionedLevel → List Segment → EStateM Fault Dir (List Segment) :=
  mergeAndWriteTo orders SEGMENT_SIZE fuel

/-- The merge into a level. The maps of each merge are iterated over in orders of their own.
SOURCE: level.rs:441-477 -/
def mergeLevels (orders : PartitionedLevel → List Segment → ℕ → IterationOrder) (fuel : ℕ) :
    PartitionedLevel → List Segment → EStateM Fault Dir (PartitionedLevel × List Segment) :=
  PartitionedLevel.merge fun level segments => mergeAndWrite (orders level segments) fuel level segments

end Rkvs.Model.Sst

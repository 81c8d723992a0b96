import Rkvs.Model.MemTable
import Mathlib.Data.Finset.Sort

/-!
# Segments of the SSTable

`sstable/level/segment.rs`: the files that hold sorted entries, the index at their end, the two
ways of writing them, lookups, and the buffered reader of the merge. An opened segment keeps the
contents of its file, which does not change any more. `read_at` fills the buffer it is given as
far as the file goes; what is left of the buffer are zeros.
-/

set_option autoImplicit false

namespace Rkvs.Model.Sst

open Rkvs.Library

/-- SOURCE: level/segment.rs:10 -/
def MAGIC_BYTES : Bytes := [0x72, 0x6B, 0x76, 0x73]

/-- SOURCE: level/segment.rs:11 -/
def SEGMENT_FOOTER_LEN : ℕ := 12

/-- SOURCE: level/segment.rs:12 -/
def SEGMENT_SIZE : ℕ := 1024 * 1024 * 64

/-- SOURCE: level/segment.rs:80-84 -/
structure SegmentIndexEntry where
  key : String
  offset : ℕ
  deriving DecidableEq, Repr

/-- SOURCE: level/segment.rs:68-72 -/
structure SegmentIndex where
  indices : List SegmentIndexEntry
  len : ℕ
  deriving DecidableEq, Repr

/-- SOURCE: level/segment.rs:86-89 -/
inductive IndexSearchResult
  | exact (offset : ℕ)
  | range (start : ℕ) (stop : Option ℕ)
  deriving DecidableEq, Repr

/-- SOURCE: level/segment.rs:91-95 -/
inductive SegmentOpenError
  | ioError (kind : ErrorKind)
  | corrupted
  deriving DecidableEq, Repr

/-- SOURCE: level/segment.rs:26-38 -/
structure Segment where
  file : Bytes
  filepath : String
  index : SegmentIndex
  highestSequenceNo : ℕ
  size : ℕ
  dataBlockEnd : ℕ
  levelNumber : ℕ
  number : ℕ
  firstKey : String
  lastKey : String
  deriving DecidableEq, Repr

/-- `position` is where the file is written next.
SOURCE: level/segment.rs:44-53 -/
structure SegmentWriter where
  position : ℕ
  filepath : String
  currSize : ℕ
  indexSparsityFactor : ℕ
  index : SegmentIndex
  targetSize : ℕ
  entriesWritten : ℕ
  finished : Bool
  deriving DecidableEq, Repr

/-- SOURCE: level/segment.rs:59-66 -/
structure SegmentReadBuf where
  segment : Segment
  buf : List SsTableEntry
  currOffset : ℕ
  size : ℕ
  maxSize : ℕ
  deriving DecidableEq, Repr

/-! ## The index -/

/-- The length has four bytes of the eight that are reserved for it.
SOURCE: level/segment.rs:550-561 -/
def SegmentIndexEntry.toBytes (e : SegmentIndexEntry) : Bytes :=
  leBytes 4 (asBytes e.key).length ++ List.replicate 4 0 ++ asBytes e.key ++ leBytes 8 e.offset

namespace SegmentIndex

/-- SOURCE: level/segment.rs:460-465 -/
def new : SegmentIndex := ⟨[], 0⟩

/-- The loop of `binary_search`. The distance of `l` and `r` gets smaller in every round, so
`fuel` of more than it is never used up.
SOURCE: level/segment.rs:489-502 -/
def binarySearchLoop (indices : List SegmentIndexEntry) (key : String) : ℕ → ℕ → ℕ → Exec ℕ
  | 0, _, _ => .error .panic
  | fuel + 1, l, r =>
    if l < r then do
      let m := (l + r) / 2 + 1
      let entry ← unwrap indices[m]?
      if entry.key ≤ key then binarySearchLoop indices key fuel m r
      else binarySearchLoop indices key fuel l (m - 1)
    else .ok l

/-- SOURCE: level/segment.rs:489-502 -/
def binarySearch (index : SegmentIndex) (key : String) : Exec (SegmentIndexEntry × ℕ) := do
  let r ← checkedSub index.indices.length 1
  let l ← binarySearchLoop index.indices key (r + 1) 0 r
  return (← unwrap index.indices[l]?, l)

/-- SOURCE: level/segment.rs:467-487 -/
def find (index : SegmentIndex) (key : String) : Exec IndexSearchResult := do
  match index.indices with
  | [] => return .range 0 none
  | first :: _ =>
    if key < first.key then return .range 0 (some first.offset)
    else do
      let (entry, idx) ← index.binarySearch key
      if key = entry.key then return .exact entry.offset
      else if idx < index.indices.length - 1 then do
        let next ← unwrap index.indices[idx + 1]?
        return .range entry.offset (some next.offset)
      else return .range entry.offset none

/-- SOURCE: level/segment.rs:504-511 -/
def toBytes (index : SegmentIndex) : Bytes := index.indices.flatMap SegmentIndexEntry.toBytes

/-- SOURCE: level/segment.rs:513-519 -/
def addIndex (index : SegmentIndex) (key : String) (offset : ℕ) : Exec SegmentIndex := do
  let len ← checkedAdd 64 index.len ((asBytes key).length + 8 + 4)
  return ⟨index.indices ++ [⟨key, offset⟩], len⟩

/-- The loop of `from_bytes`. Every round moves on by at least 16 bytes, so `fuel` of more than
the bytes that are left is never used up.
SOURCE: level/segment.rs:521-537 -/
def fromBytesLoop (buf : Bytes) : ℕ → ℕ → SegmentIndex → Exec SegmentIndex
  | 0, _, _ => .error .panic
  | fuel + 1, bufOffset, index =>
    if bufOffset < buf.length then do
      let keyLen ← leValue <$> slice buf bufOffset (bufOffset + 8)
      let bufOffset := bufOffset + 8
      let key ← unwrap (fromUtf8 (← slice buf bufOffset (bufOffset + keyLen)))
      let bufOffset := bufOffset + keyLen
      let offset ← leValue <$> slice buf bufOffset (bufOffset + 8)
      let index ← index.addIndex key offset
      fromBytesLoop buf fuel (bufOffset + 8) index
    else .ok index

def fromBytes (buf : Bytes) : Exec SegmentIndex := fromBytesLoop buf (buf.length + 1) 0 new

end SegmentIndex

/-- SOURCE: level/segment.rs:594-600 -/
def footerToBytes (indexOffset : ℕ) : Bytes := leBytes 8 indexOffset ++ MAGIC_BYTES

/-! ## Opened segments -/

/-- What a read of `n` bytes at `offset` puts into a buffer of `n` zeros. -/
def readAt (file : Bytes) (offset n : ℕ) : Bytes :=
  let bytes := (file.drop offset).take n
  bytes ++ List.replicate (n - bytes.length) 0

namespace Segment

/-- SOURCE: level/segment.rs:305-314 -/
def determineSegmentFilename (levelNumber segmentNumber : ℕ) : Exec String := do
  let levelNumberHexStr := Nat.toDigits 16 levelNumber
  let levelPadding ← checkedSub 8 levelNumberHexStr.length
  let segmentNumberHexStr := Nat.toDigits 16 segmentNumber
  let segmentPadding ← checkedSub 8 segmentNumberHexStr.length
  return String.ofList (List.replicate levelPadding '0' ++ levelNumberHexStr ++
    List.replicate segmentPadding '0' ++ segmentNumberHexStr ++ ['.', 's', 's', 't'])

/-- SOURCE: level/segment.rs:316-320 -/
def levelAndSegmentNumberFromFilename (filename : String) : Exec (ℕ × ℕ) := do
  let levelNumber ← numberInName filename.toList 0 8
  let segmentNumber ← numberInName filename.toList 8 16
  return (levelNumber, segmentNumber)

/-- SOURCE: level/segment.rs:245-276 -/
def readTableEntry (file : Bytes) (offset : ℕ) : Exec SsTableEntry :=
  let entryLen := leValue (readAt file offset 4)
  SsTableEntry.fromBytes (readAt file (offset + 4) entryLen)

/-- SOURCE: level/segment.rs:226-242 -/
def readTableEntries (file : Bytes) (start stop : ℕ) : Exec (List SsTableEntry) := do
  let len ← checkedSub stop start
  SsTableEntry.vecFromBytes (readAt file start len)

/-- SOURCE: level/segment.rs:99-152, 586-592 -/
def fromFile (dir : Dir) (path : String) : Exec (Except SegmentOpenError Segment) := do
  let (levelNo, segmentNo) ← levelAndSegmentNumberFromFilename path
  if path ∉ dir.names then return .error (.ioError .notFound)
  let file := dir.content path
  if file.length < SEGMENT_FOOTER_LEN then return .error (.ioError .invalidInput)
  let footerBuf := file.drop (file.length - SEGMENT_FOOTER_LEN)
  if footerBuf.drop 8 ≠ MAGIC_BYTES then return .error .corrupted
  let indexOffset := leValue (footerBuf.take 8)
  let bufLen ← checkedSub (← checkedSub file.length SEGMENT_FOOTER_LEN) indexOffset
  let index ← SegmentIndex.fromBytes ((file.drop indexOffset).take bufLen)
  let firstKey := (← readTableEntry file 0).key
  let start := match index.indices.getLast? with
    | none => 0
    | some idx => idx.offset
  let entries ← readTableEntries file start indexOffset
  let highestSequenceNo := entries.foldl (fun n e => if e.sequenceNumber > n then e.sequenceNumber
    else n) 0
  let lastKey := match entries.getLast? with
    | none => firstKey
    | some entry => entry.key
  return .ok
    { file := file
      filepath := path
      highestSequenceNo := highestSequenceNo
      index := index
      size := file.length
      number := segmentNo
      dataBlockEnd := indexOffset
      firstKey := firstKey
      lastKey := lastKey
      levelNumber := levelNo }

/-- The scan of the entries of a range.
SOURCE: level/segment.rs:165-173 -/
def scan (key : String) : List SsTableEntry → Option SsTableEntry
  | [] => none
  | entry :: entries =>
    if entry.key = key then some entry
    else if key < entry.key then none
    else scan key entries

/-- SOURCE: level/segment.rs:157-175 -/
def get (segment : Segment) (key : String) : Exec (Option SsTableEntry) := do
  match ← segment.index.find key with
  | .exact offset => some <$> readTableEntry segment.file offset
  | .range start opt => do
    let stop := opt.getD segment.dataBlockEnd
    return scan key (← readTableEntries segment.file start stop)

/-- SOURCE: level/segment.rs:180-205 -/
def readAtMost (segment : Segment) (offset maxBytes : ℕ) : Exec (List SsTableEntry) := do
  let bytesToRead := min (← checkedAdd 64 (← checkedSub segment.dataBlockEnd offset) 1) maxBytes
  SsTableEntry.dequeFromBytes ((segment.file.drop offset).take bytesToRead)

/-- SOURCE: level/segment.rs:300-302 -/
def overlaps (segment other : Segment) : Prop :=
  other.firstKey ≤ segment.lastKey ∧ segment.firstKey ≤ other.lastKey

instance (segment other : Segment) : Decidable (segment.overlaps other) :=
  inferInstanceAs (Decidable (_ ∧ _))

end Segment

/-! ## Writing -/

namespace SegmentWriter

/-- The loop of `segment_file_from_memtable` over the keys, with the cursor of the file. It
returns the index and the offset behind the data.
SOURCE: level/segment.rs:350-363 -/
def memtableLoop (filepath : String) (table : Table) (indexSparsityFactor : ℕ) :
    List String → SegmentIndex → ℕ → ℕ → EStateM Fault Dir (SegmentIndex × ℕ)
  | [], index, _, offset => return (index, offset)
  | key :: keys, index, counter, offset => do
    let index ← liftExec (do
      if (← checkedMod counter indexSparsityFactor) = 0 then index.addIndex key offset
      else return index)
    let value ← liftExec (unwrap (table.lookup key))
    let entry := SsTableEntry.fromValue key value
    let bytes := entry.toBytes
    Dir.writeAt filepath offset (leBytes 4 bytes.length)
    let offset ← liftExec (checkedAdd 64 offset 4)
    Dir.writeAt filepath offset bytes
    let offset ← liftExec (checkedAdd 64 offset entry.len)
    let counter ← liftExec (checkedAdd 32 counter 1)
    memtableLoop filepath table indexSparsityFactor keys index counter offset

/-- SOURCE: level/segment.rs:333-372 -/
def segmentFileFromMemtable (table : Table) (segmentNumber indexSparsityFactor : ℕ) :
    EStateM Fault Dir String := do
  let filepath ← liftExec (Segment.determineSegmentFilename 0 segmentNumber)
  Dir.openWrite filepath
  let keys := table.keys.sort (· ≤ ·)
  let (index, offset) ←
    memtableLoop filepath table indexSparsityFactor keys SegmentIndex.new 0 0
  Dir.writeAt filepath offset index.toBytes
  Dir.writeAt filepath (offset + index.toBytes.length) (footerToBytes offset)
  return filepath

/-- SOURCE: level/segment.rs:378-401 -/
def createNewSegment (levelNumber segmentNumber indexSparsityFactor : ℕ) :
    EStateM Fault Dir SegmentWriter := do
  let filepath ← liftExec (Segment.determineSegmentFilename levelNumber segmentNumber)
  Dir.openWrite filepath
  let size := ((← get).content filepath).length
  return ⟨0, filepath, size, indexSparsityFactor, SegmentIndex.new, SEGMENT_SIZE, 0, false⟩

/-- SOURCE: level/segment.rs:412-414 -/
def reachedTargetSize (w : SegmentWriter) : Exec Bool := do
  let size ← checkedAdd 64 (← checkedAdd 64 w.currSize w.index.len) SEGMENT_FOOTER_LEN
  return decide (w.targetSize ≤ size)

/-- SOURCE: level/segment.rs:419-431 -/
def writeIndexAndFooter (w : SegmentWriter) : EStateM Fault Dir SegmentWriter := do
  liftExec (assert (w.finished = false))
  Dir.writeAt w.filepath w.position w.index.toBytes
  let position := w.position + w.index.toBytes.length
  Dir.writeAt w.filepath position (footerToBytes w.currSize)
  return { w with position := position + SEGMENT_FOOTER_LEN, finished := true }

/-- SOURCE: level/segment.rs:434-449 -/
def writeEntry (w : SegmentWriter) (entry : SsTableEntry) : EStateM Fault Dir SegmentWriter := do
  liftExec (assert (w.finished = false))
  let bytes := entry.toBytes
  Dir.writeAt w.filepath w.position (leBytes 4 bytes.length)
  Dir.writeAt w.filepath (w.position + 4) bytes
  let entriesWritten ← liftExec (checkedAdd 64 w.entriesWritten 1)
  let index ← liftExec (do
    if (← checkedMod entriesWritten w.indexSparsityFactor) = 0 then
      w.index.addIndex entry.key w.currSize
    else return w.index)
  let currSize ← liftExec (checkedAdd 64 w.currSize (bytes.length + 4))
  return { w with
    position := w.position + 4 + bytes.length
    entriesWritten := entriesWritten
    index := index
    currSize := currSize }

end SegmentWriter

/-! ## Reading for a merge -/

namespace SegmentReadBuf

/-- SOURCE: level/segment.rs:606-614 -/
def new (segment : Segment) (readBufLen : ℕ) : SegmentReadBuf := ⟨segment, [], 0, 0, readBufLen⟩

/-- SOURCE: level/segment.rs:619-628 -/
def fill (b : SegmentReadBuf) : Exec SegmentReadBuf := do
  let maxBytes ← checkedSub b.maxSize b.size
  let newEntries ← b.segment.readAtMost b.currOffset maxBytes
  newEntries.foldlM (fun b entry => do
    let size ← checkedAdd 64 b.size (entry.len + 4)
    let currOffset ← checkedAdd 64 b.currOffset (entry.len + 4)
    return { b with size := size, currOffset := currOffset, buf := b.buf ++ [entry] }) b

/-- SOURCE: level/segment.rs:631-633 -/
def back (b : SegmentReadBuf) : Option SsTableEntry := b.buf.getLast?

/-- SOURCE: level/segment.rs:636-638 -/
def front (b : SegmentReadBuf) : Option SsTableEntry := b.buf.head?

/-- SOURCE: level/segment.rs:641-649 -/
def popFront (b : SegmentReadBuf) : Exec (Option SsTableEntry × SegmentReadBuf) := do
  match b.buf with
  | [] => return (none, b)
  | entry :: buf => do
    let size ← checkedSub b.size (entry.len + 4)
    return (some entry, { b with buf := buf, size := size })

/-- SOURCE: level/segment.rs:651-653 -/
def isEmpty (b : SegmentReadBuf) : Bool := b.buf.isEmpty

end SegmentReadBuf

end Rkvs.Model.Sst

import Rkvs.Library.Hexadecimal
import Rkvs.Model.Directory

/-!
# Segments of the write-ahead log

`memtable/wal/segment.rs`: log records and their byte format, segment file names, and the
parser of segment files. The checksum of the third-party crate is a parameter. A file name
is ASCII, so its characters are its bytes.
-/

set_option autoImplicit false

namespace Rkvs.Model

open Rkvs.Library

/-- SOURCE: wal/segment.rs:6 -/
def HEADER_SIZE : ℕ := 13

/-- SOURCE: wal/segment.rs:27-31 -/
inductive OpType
  | put
  | delete
  deriving DecidableEq, Repr

/-- The byte that stands for the operation in a record.
SOURCE: wal/segment.rs:284-293 -/
def OpType.toByte : OpType → UInt8
  | .put => 1
  | .delete => 2

/-- SOURCE: wal/segment.rs:39-45 -/
structure WalEntry where
  operationType : OpType
  key : String
  value : Option String
  sequenceNumber : ℕ
  deriving DecidableEq, Repr

/-- SOURCE: wal/segment.rs:33-37 -/
inductive RecoveryError
  | io (kind : ErrorKind)
  | corrupted (path : String) (offset : ℕ)
  deriving DecidableEq, Repr

/-- The header of a record whose rest is in the next file.
SOURCE: wal/segment.rs:47-51 -/
structure PartialWalEntry where
  segmentFilePath : String
  offset : ℕ
  bytes : Bytes
  deriving DecidableEq, Repr

/-- A segment file that is open. `fileSize` and `maxSize` are `u32`, `baseLsn` is `u64`.
SOURCE: wal/segment.rs:19-25 -/
structure Segment where
  filePath : String
  fileSize : ℕ
  maxSize : ℕ
  baseLsn : ℕ
  deriving DecidableEq, Repr

/-! ## File names -/

/-- The name of a file of size `segmentSize`. The division panics for size zero, which is left to the
callers.
SOURCE: wal/segment.rs:64-91 -/
def determineSegmentFilename (timeline sequenceNumber segmentSize : ℕ) : String :=
  let sequenceNumberHex := hexPad 16 sequenceNumber
  let segmentNo := sequenceNumber % 2 ^ 32 / segmentSize
  let segmentNoHex := hexPad 16 segmentNo
  String.ofList (hexPad 8 timeline ++ sequenceNumberHex.take 8 ++ segmentNoHex.drop 8 ++
    ['.', 'w', 'a', 'l'])

/-- `u64::from_str_radix` with radix 16. -/
def fromStrRadix16 (cs : List Char) : Option ℕ :=
  let digits := match cs with
    | '+' :: rest => rest
    | _ => cs
  if digits = [] then none
  else (parseHex digits).bind fun v => if v < 2 ^ 64 then some v else none

/-- `Path::file_stem`: what stands before the last dot of a file name. -/
def fileStem (filename : String) : List Char :=
  let cs := filename.toList
  let stem := (cs.reverse.dropWhile (· ≠ '.')).drop 1
  if stem = [] then cs else stem.reverse

/-- The number in the characters `start..stop` of a file name. -/
def numberInName (cs : List Char) (start stop : ℕ) : Exec ℕ := do
  unwrap (fromStrRadix16 (← slice cs start stop))

/-- Whether the file still holds log data past `sequence_number`, judged by its length.
SOURCE: wal/segment.rs:93-99 -/
def finalEntryAfter (filename : String) (fileSize sequenceNumber : ℕ) : Exec Bool := do
  let segmentNo ← numberInName filename.toList 16 24
  let logicalLogNo ← numberInName filename.toList 8 16
  let ending ← checkedAdd 64 (← checkedMul 64 logicalLogNo (2 ^ 32))
    (← checkedMul 64 fileSize (← checkedAdd 64 segmentNo 1))
  return decide (sequenceNumber < ending)

/-- The LSN at which the segment of this name starts.
SOURCE: wal/segment.rs:118-121, 134-137 -/
def parseBaseLsn (path : String) (maxSize : ℕ) : Exec ℕ := do
  let filename := fileStem path
  assert (filename.length = 24)
  checkedAdd 64 (← checkedMul 64 (← numberInName filename 8 16) (2 ^ 32))
    (← checkedMul 64 (← numberInName filename 16 filename.length) maxSize)

/-! ## Log records -/

section
variable (calculateChecksum : Bytes → UInt32)

namespace WalEntry

/-- The part of a record that its checksum covers. -/
def body (e : WalEntry) : Bytes :=
  [e.operationType.toByte] ++ leBytes 4 (asBytes e.key).length ++ asBytes e.key ++
    (match e.value with
      | some v => leBytes 4 (asBytes v).length ++ asBytes v
      | none => []) ++
    leBytes 8 e.sequenceNumber

/-- A whole record: length, checksum, body. -/
def encode (e : WalEntry) : Bytes :=
  leBytes 4 (e.body.length + 4) ++ leBytes 4 (calculateChecksum e.body).toNat ++ e.body

/-- A put has a value and a delete has none.
SOURCE: wal/segment.rs:284-293 -/
def valueFits (e : WalEntry) : Bool :=
  match e.operationType with
  | .put => e.value.isSome
  | .delete => e.value.isNone

/-- SOURCE: wal/segment.rs:272-312 -/
def toBytes (e : WalEntry) : Exec Bytes := do
  assert (e.key ≠ "")
  assert (e.valueFits = true)
  return e.encode calculateChecksum

/-- `none` is `Err(())`.
SOURCE: wal/segment.rs:314-361 -/
def fromBytes (bytes : Bytes) : Exec (Option WalEntry) := do
  if bytes.length < 1 + 4 then return none
  let op := if bytes.head? = some 1 then OpType.put else OpType.delete
  let offset := 1
  let keyLen ← sliceU32 bytes offset
  let offset := offset + 4
  if bytes.length < offset + keyLen then return none
  match fromUtf8 (← slice bytes offset (offset + keyLen)) with
  | none => return none
  | some key =>
    let offset := offset + keyLen
    if offset + 8 < bytes.length then
      let valueLen ← sliceU32 bytes offset
      let offset := offset + 4
      if bytes.length < offset + valueLen then return none
      match fromUtf8 (← slice bytes offset (offset + valueLen)) with
      | none => return none
      | some value => fromBytesEnd op key (some value) bytes (offset + valueLen)
    else fromBytesEnd op key none bytes offset
where
  /-- The sequence number, which must be all that is left. -/
  fromBytesEnd (op : OpType) (key : String) (value : Option String) (bytes : Bytes)
      (offset : ℕ) : Exec (Option WalEntry) := do
    if bytes.length < offset + 8 then return none
    let u64Buf ← slice bytes offset bytes.length
    assert (u64Buf.length = 8)
    return some ⟨op, key, value, leValue u64Buf⟩

end WalEntry

/-! ## The parser -/

namespace Segment

/-- The loop of `parse_validate_wal_entries`. It returns the entries found with the error,
or with `offset` and `record_offset` at the end of the loop. A round that does not end the
loop moves on by at least 13 bytes, so `fuel` of more than the bytes that are left is never
used up.
SOURCE: wal/segment.rs:215-243 -/
def parseLoop (filePath : String) (bytes : Bytes) :
    ℕ → ℕ → ℕ → List WalEntry → Exec (List WalEntry × Except RecoveryError (ℕ × ℕ))
  | 0, _, _, _ => .error .panic
  | fuel + 1, offset, recordOffset, entries =>
    if HEADER_SIZE + offset > bytes.length then .ok (entries, .ok (offset, recordOffset))
    else do
      let recordOffset := offset
      let recordLen ← sliceU32 bytes offset
      if recordLen < HEADER_SIZE - 4 then
        return (entries, .error (.corrupted filePath recordOffset))
      if offset + 4 + recordLen > bytes.length then
        return (entries, .ok (offset, recordOffset))
      let readChecksum ← sliceU32 bytes (offset + 4)
      let offset := offset + 8
      let body ← slice bytes offset (offset + (recordLen - 4))
      if readChecksum ≠ (calculateChecksum body).toNat then
        return (entries, .error (.corrupted filePath recordOffset))
      match ← WalEntry.fromBytes body with
      | none => return (entries, .error (.corrupted filePath recordOffset))
      | some entry =>
        parseLoop filePath bytes fuel (offset + (recordLen - 4)) recordOffset
          (entries ++ [entry])

/-- The entries that were pushed, and the result.
SOURCE: wal/segment.rs:205-254 -/
def parseValidateWalEntries (filePath : String) (bytes : Bytes) :
    Exec (List WalEntry × Except RecoveryError (Option PartialWalEntry)) := do
  match ← parseLoop calculateChecksum filePath bytes (bytes.length + 1) 0 0 [] with
  | (entries, .error e) => return (entries, .error e)
  | (entries, .ok (offset, recordOffset)) =>
    if offset = bytes.length ∨ offset + HEADER_SIZE > bytes.length then
      return (entries, .ok none)
    else
      let header ← slice bytes offset (offset + HEADER_SIZE)
      return (entries, .ok (some ⟨filePath, recordOffset, header⟩))

/-- SOURCE: wal/segment.rs:155-175 -/
def readParseValidateFromOffset (dir : Dir) (segment : Segment) (offset : ℕ) :
    Exec (List WalEntry × Except RecoveryError (Option PartialWalEntry)) := do
  let bytes := (dir.content segment.filePath).drop offset
  match ← parseValidateWalEntries calculateChecksum segment.filePath bytes with
  | (entries, .ok opt) =>
    return (entries, .ok (opt.map fun entry => { entry with offset := entry.offset + offset }))
  | (entries, .error (.io kind)) => return (entries, .error (.io kind))
  | (entries, .error (.corrupted fp pos)) =>
    return (entries, .error (.corrupted fp (pos + offset)))

/-- SOURCE: wal/segment.rs:177-203 -/
def readParseValidateFromPartialRecord (dir : Dir) (segment : Segment) (bytes : Bytes) :
    Exec (List WalEntry × Except RecoveryError (Option PartialWalEntry)) := do
  let partRecSize := bytes.length
  let bytes := bytes ++ dir.content segment.filePath
  match ← parseValidateWalEntries calculateChecksum segment.filePath bytes with
  | (entries, .ok none) => return (entries, .ok none)
  | (entries, .ok (some partEntry)) =>
    let offset ← checkedSub partEntry.offset partRecSize
    return (entries, .ok (some { partEntry with offset := offset }))
  | (entries, .error (.io kind)) => return (entries, .error (.io kind))
  | (entries, .error (.corrupted fp bufOffset)) =>
    let offset := if bufOffset > partRecSize then bufOffset - partRecSize else bufOffset
    return (entries, .error (.corrupted fp offset))

/-! ## Opened segments -/

/-- SOURCE: wal/segment.rs:115-130 -/
def new (dir : Dir) (path : String) (maxSize : ℕ) : Exec Segment := do
  let fileSize := (dir.content path).length % 2 ^ 32
  let baseLsn ← parseBaseLsn path maxSize
  return ⟨path, fileSize, maxSize, baseLsn⟩

/-- SOURCE: wal/segment.rs:132-145 -/
def fromFile (path : String) (fileSize maxSize : ℕ) : Exec Segment := do
  let baseLsn ← parseBaseLsn path maxSize
  return ⟨path, fileSize, maxSize, baseLsn⟩

/-- SOURCE: wal/segment.rs:151-153 -/
def remainingSpace (segment : Segment) : Exec ℕ :=
  checkedSub segment.maxSize segment.fileSize

/-- SOURCE: wal/segment.rs:256-258 -/
def nextLsn (segment : Segment) : Exec ℕ := checkedAdd 64 segment.baseLsn segment.fileSize

end Segment

end

end Rkvs.Model

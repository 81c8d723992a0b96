import Rkvs.Model.Machine

/-!
# Values of the memtable and entries of the SSTable

`MemTableValue` (memtable.rs) and `SsTableEntry` (sstable.rs) with its byte format: key
length, key, value length, tombstone byte, value, sequence number. A file holds entries one
after the other, each preceded by its length; `vec_from_bytes` expects whole entries only,
`deque_from_bytes` stops at an entry that is not there in full.
-/

set_option autoImplicit false

namespace Rkvs.Model

open Rkvs.Library

/-- A version of a key: a value, or `none` for a deleted key.
SOURCE: memtable.rs:20-23 -/
structure MemTableValue where
  value : Option String
  sequenceNumber : ℕ
  deriving DecidableEq, Repr

/-- SOURCE: sstable.rs:15-20 -/
structure SsTableEntry where
  key : String
  value : Option String
  sequenceNumber : ℕ
  deriving DecidableEq, Repr

namespace SsTableEntry

/-- SOURCE: sstable.rs:210-216 -/
def fromValue (key : String) (value : MemTableValue) : SsTableEntry :=
  ⟨key, value.value, value.sequenceNumber⟩

/-- SOURCE: sstable.rs:195-208 -/
def len (e : SsTableEntry) : ℕ :=
  let valueLen := match e.value with
    | none => 1
    | some v => (asBytes v).length + 1
  2 * 4 + 8 + (asBytes e.key).length + valueLen

/-- SOURCE: sstable.rs:132-162 -/
def toBytes (e : SsTableEntry) : Bytes :=
  leBytes 4 (asBytes e.key).length ++ asBytes e.key ++
    (match e.value with
      | some v => leBytes 4 (asBytes v).length ++ [0] ++ asBytes v
      | none => leBytes 4 0 ++ [1]) ++
    leBytes 8 e.sequenceNumber

/-- SOURCE: sstable.rs:164-193 -/
def fromBytes (bytes : Bytes) : Exec SsTableEntry := do
  let keyLen ← sliceU32 bytes 0
  let offset := 4
  let key ← unwrap (fromUtf8 (← slice bytes offset (offset + keyLen)))
  let offset := offset + keyLen
  let valueLen ← sliceU32 bytes offset
  let offset := offset + 4
  let tombstoneValue ← unwrap bytes[offset]?
  let offset := offset + 1
  let value ← if tombstoneValue = 1 then .ok none
    else some <$> unwrap (fromUtf8 (← slice bytes offset (offset + valueLen)))
  let offset := offset + valueLen
  let sequenceNo ← leValue <$> slice bytes offset (offset + 8)
  return ⟨key, value, sequenceNo⟩

/-- The loop of `vec_from_bytes`. Every round moves on by at least four bytes, so `fuel` of
more than the bytes that are left is never used up.
SOURCE: sstable.rs:218-233 -/
def vecFromBytesLoop (buf : Bytes) : ℕ → ℕ → List SsTableEntry → Exec (List SsTableEntry)
  | 0, _, _ => .error .panic
  | fuel + 1, offset, res =>
    if offset < buf.length then do
      let recordLen ← sliceU32 buf offset
      let offset := offset + 4
      let entry ← fromBytes (← slice buf offset (offset + recordLen))
      vecFromBytesLoop buf fuel (offset + recordLen) (res ++ [entry])
    else .ok res

def vecFromBytes (buf : Bytes) : Exec (List SsTableEntry) :=
  vecFromBytesLoop buf (buf.length + 1) 0 []

/-- The loop of `deque_from_bytes`, with `fuel` as above.
SOURCE: sstable.rs:235-254 -/
def dequeFromBytesLoop (bytes : Bytes) : ℕ → ℕ → List SsTableEntry → Exec (List SsTableEntry)
  | 0, _, _ => .error .panic
  | fuel + 1, offset, res =>
    if offset + 4 < bytes.length then do
      let entrySize ← sliceU32 bytes offset
      let offset := offset + 4
      if offset + entrySize ≤ bytes.length then do
        let entry ← fromBytes (← slice bytes offset (offset + entrySize))
        dequeFromBytesLoop bytes fuel (offset + entrySize) (res ++ [entry])
      else .ok res
    else .ok res

def dequeFromBytes (bytes : Bytes) : Exec (List SsTableEntry) :=
  dequeFromBytesLoop bytes (bytes.length + 1) 0 []

end SsTableEntry

end Rkvs.Model

import Rkvs.Analysis.WalRecord
import Rkvs.Model.MemTable

/-!
# The parser of log files reads a stream of records

`parse_validate_wal_entries` reads records until it finds no further one and then reports
what it found instead: nothing but a few bytes, the beginning of a record, or a corrupt
record. The positions that it and its two callers report are where the tail of the file
begins, whatever was skipped or carried over in front of the file.
-/

set_option autoImplicit false

namespace Rkvs.Analysis

open Rkvs.Library Rkvs.Model

section
variable {crc : Bytes → UInt32}

/-- INTERNAL: one round of the parser is one look at the rest of the buffer.
SOURCE: wal/segment.rs:215-243 -/
theorem parseLoop_succ (path : String) {bytes : Bytes} {offset : ℕ}
    (hoffset : offset ≤ bytes.length) (fuel recordOffset : ℕ) (entries : List WalEntry) :
    Segment.parseLoop crc path bytes (fuel + 1) offset recordOffset entries =
      match scanRecord crc (bytes.drop offset) with
      | .stop => .ok (entries, .ok (offset,
          if (bytes.drop offset).length < HEADER_SIZE then recordOffset else offset))
      | .fail .corrupted => .ok (entries, .error (.corrupted path offset))
      | .fail (.fault f) => .error f
      | .item e n => Segment.parseLoop crc path bytes fuel (offset + n) offset (entries ++ [e]) := by
  have hdrop : (bytes.drop offset).length = bytes.length - offset := List.length_drop
  rw [Segment.parseLoop]
  unfold scanRecord
  by_cases hshort : (bytes.drop offset).length < HEADER_SIZE
  · rw [if_pos (by omega), if_pos hshort]
    simp only
    rw [if_pos hshort]
  · have hheader : HEADER_SIZE = 13 := rfl
    rw [if_neg (by omega), if_neg hshort]
    have hlen : sliceU32 bytes offset = .ok (leValue ((bytes.drop offset).take 4)) :=
      sliceU32_ok (by omega)
    simp only [hlen, exec_ok_bind]
    generalize leValue ((bytes.drop offset).take 4) = recordLen
    by_cases hsmall : recordLen < HEADER_SIZE - 4
    · rw [if_pos hsmall, if_pos hsmall]
      rfl
    rw [if_neg hsmall, if_neg hsmall]
    by_cases hlong : (bytes.drop offset).length < 4 + recordLen
    · rw [if_pos (by omega), if_pos hlong]
      simp only
      rw [if_neg hshort]
      rfl
    rw [if_neg (by omega), if_neg hlong]
    have hstored : sliceU32 bytes (offset + 4) =
        .ok (leValue (((bytes.drop offset).drop 4).take 4)) := by
      rw [sliceU32_ok (by omega), List.drop_drop]
    have hbody : slice bytes (offset + 8) (offset + 8 + (recordLen - 4)) =
        .ok (((bytes.drop offset).drop 8).take (recordLen - 4)) := by
      rw [slice_ok (by omega) (by omega), Nat.add_sub_cancel_left, List.drop_drop]
    simp only [hstored, hbody, exec_ok_bind]
    split
    · rfl
    · cases hdecode : WalEntry.fromBytes (((bytes.drop offset).drop 8).take (recordLen - 4)) with
      | error f => rfl
      | ok found =>
        cases found with
        | none => rfl
        | some e =>
          have hnext : offset + 8 + (recordLen - 4) = offset + (4 + recordLen) := by omega
          simp only [exec_ok_bind]
          rw [hnext]

/-- INTERNAL: the loop takes over all records that stand in the rest of the buffer. -/
theorem parseLoop_of_reads (path : String) {bytes tail : Bytes} {es : List WalEntry}
    {offset fuel : ℕ} (h : (walFraming crc).Reads (bytes.drop offset) es tail)
    (hoffset : offset ≤ bytes.length) (hfuel : es.length < fuel) (recordOffset : ℕ)
    (entries : List WalEntry) :
    ∃ left recordOffset',
      Segment.parseLoop crc path bytes fuel offset recordOffset entries =
        Segment.parseLoop crc path bytes (left + 1) (bytes.length - tail.length) recordOffset'
          (entries ++ es) := by
  generalize hrest : bytes.drop offset = rest at h
  induction h generalizing offset fuel recordOffset entries with
  | done rest =>
    obtain ⟨left, rfl⟩ : ∃ left, fuel = left + 1 := ⟨fuel - 1, by simp at hfuel; omega⟩
    have hlen : bytes.length - rest.length = offset := by
      rw [← hrest, List.length_drop]
      omega
    exact ⟨left, recordOffset, by rw [hlen, List.append_nil]⟩
  | @next rest e n es tail head _ ih =>
    obtain ⟨left, rfl⟩ : ∃ left, fuel = left + 1 := ⟨fuel - 1, by simp at hfuel; omega⟩
    have hle := (walFraming crc).item_le head
    rw [walFraming_scan] at head
    have hn : offset + n ≤ bytes.length := by
      rw [← hrest, List.length_drop] at hle
      omega
    obtain ⟨left', recordOffset', heq⟩ :=
      ih hn (by simpa using hfuel) offset (entries ++ [e]) (by rw [← hrest, List.drop_drop])
    refine ⟨left', recordOffset', ?_⟩
    rw [parseLoop_succ path hoffset, hrest, head]
    simp only
    rw [heq, List.append_assoc]
    rfl

/-- What the parser says about a tail at which it ends without an error: too few bytes for a
header say nothing, otherwise a record begins there.
SOURCE: wal/segment.rs:244-253 -/
def tailReport (path : String) (offset : ℕ) (tail : Bytes) : Option PartialWalEntry :=
  if tail.length < HEADER_SIZE then none else some ⟨path, offset, tail.take HEADER_SIZE⟩

/-- INTERNAL: the parser ends at a tail without a complete record. -/
theorem parse_stop (path : String) {bytes tail : Bytes} {es : List WalEntry}
    (h : (walFraming crc).Reads bytes es tail) (hstop : scanRecord crc tail = .stop) :
    Segment.parseValidateWalEntries crc path bytes =
      .ok (es, .ok (tailReport path (bytes.length - tail.length) tail)) := by
  have hlen := h.length_le
  obtain ⟨front, hfront⟩ := h.suffix
  have hdrop : bytes.drop (bytes.length - tail.length) = tail := by
    rw [← hfront, List.length_append, Nat.add_sub_cancel, List.drop_left]
  obtain ⟨left, recordOffset, heq⟩ := parseLoop_of_reads path
    (show (walFraming crc).Reads (bytes.drop 0) es tail from h) (Nat.zero_le _)
    (show es.length < bytes.length + 1 by omega) 0 []
  unfold Segment.parseValidateWalEntries
  rw [heq, parseLoop_succ path (Nat.sub_le ..), hdrop, hstop]
  simp only [exec_ok_bind, List.nil_append]
  unfold tailReport
  have hheader : HEADER_SIZE = 13 := rfl
  by_cases hshort : tail.length < HEADER_SIZE
  · rw [if_pos hshort, if_pos hshort, if_pos (Or.inr (by omega))]
    rfl
  · rw [if_neg (by omega), if_neg hshort, if_neg hshort, slice_ok (by omega) (by omega), hdrop,
      Nat.add_sub_cancel_left]
    rfl

/-- INTERNAL: the parser reports a corrupt record where the tail begins. -/
theorem parse_corrupted (path : String) {bytes tail : Bytes} {es : List WalEntry}
    (h : (walFraming crc).Reads bytes es tail)
    (hbad : scanRecord crc tail = .fail .corrupted) :
    Segment.parseValidateWalEntries crc path bytes =
      .ok (es, .error (.corrupted path (bytes.length - tail.length))) := by
  have hlen := h.length_le
  obtain ⟨front, hfront⟩ := h.suffix
  have hdrop : bytes.drop (bytes.length - tail.length) = tail := by
    rw [← hfront, List.length_append, Nat.add_sub_cancel, List.drop_left]
  obtain ⟨left, recordOffset, heq⟩ := parseLoop_of_reads path
    (show (walFraming crc).Reads (bytes.drop 0) es tail from h) (Nat.zero_le _)
    (show es.length < bytes.length + 1 by omega) 0 []
  unfold Segment.parseValidateWalEntries
  rw [heq, parseLoop_succ path (Nat.sub_le ..), hdrop, hbad]
  rfl

/-- INTERNAL: the parser panics where the decoder does. -/
theorem parse_fault (path : String) {bytes tail : Bytes} {es : List WalEntry} {f : Fault}
    (h : (walFraming crc).Reads bytes es tail) (hbad : scanRecord crc tail = .fail (.fault f)) :
    Segment.parseValidateWalEntries crc path bytes = .error f := by
  have hlen := h.length_le
  obtain ⟨front, hfront⟩ := h.suffix
  have hdrop : bytes.drop (bytes.length - tail.length) = tail := by
    rw [← hfront, List.length_append, Nat.add_sub_cancel, List.drop_left]
  obtain ⟨left, recordOffset, heq⟩ := parseLoop_of_reads path
    (show (walFraming crc).Reads (bytes.drop 0) es tail from h) (Nat.zero_le _)
    (show es.length < bytes.length + 1 by omega) 0 []
  unfold Segment.parseValidateWalEntries
  rw [heq, parseLoop_succ path (Nat.sub_le ..), hdrop, hbad]
  rfl

/-! ## One file of the recovery loop -/

/-- Where the loop goes on: at an offset of the next file, or behind the header of a record
that begins in an earlier file.
SOURCE: memtable.rs:254-256 -/
inductive Cursor
  | start (offset : ℕ)
  | carried (entry : PartialWalEntry)

namespace Cursor

def offset : Cursor → ℕ
  | start offset => offset
  | carried _ => 0

def carry : Cursor → Option PartialWalEntry
  | start _ => none
  | carried entry => some entry

/-- The bytes that the parser gets for a file.
SOURCE: wal/segment.rs:155-186 -/
def buffer (content : Bytes) : Cursor → Bytes
  | start offset => content.drop offset
  | carried entry => entry.bytes ++ content

/-- What a tail at `position` of a file means for the next file. -/
def after (path : String) (position : ℕ) (tail : Bytes) : Cursor :=
  match tailReport path position tail with
  | none => start 0
  | some entry => carried entry

theorem after_carry (path : String) (position : ℕ) (tail : Bytes) :
    (after path position tail).carry = tailReport path position tail := by
  unfold after
  cases tailReport path position tail <;> rfl

theorem after_offset (path : String) (position : ℕ) (tail : Bytes) :
    (after path position tail).offset = 0 := by
  unfold after
  cases tailReport path position tail <;> rfl

/-- INTERNAL: too few bytes for a header are forgotten. -/
theorem after_short (path : String) (position : ℕ) {tail : Bytes}
    (h : tail.length < HEADER_SIZE) : after path position tail = start 0 := by
  unfold after tailReport
  rw [if_pos h]

/-- INTERNAL: a header is carried over. -/
theorem after_header (path : String) (position : ℕ) {tail : Bytes}
    (h : HEADER_SIZE ≤ tail.length) :
    after path position tail = carried ⟨path, position, tail.take HEADER_SIZE⟩ := by
  unfold after tailReport
  rw [if_neg (by omega)]

end Cursor

/-- INTERNAL: a skipped beginning is added to the position of the tail.
SOURCE: wal/segment.rs:155-175 -/
theorem readFromOffset_stop {dir : Dir} {segment : Segment} {offset : ℕ} {tail : Bytes}
    {es : List WalEntry}
    (h : (walFraming crc).Reads ((dir.content segment.filePath).drop offset) es tail)
    (hstop : scanRecord crc tail = .stop)
    (hoffset : offset ≤ (dir.content segment.filePath).length) :
    segment.readParseValidateFromOffset crc dir offset = .ok (es, .ok
      (tailReport segment.filePath ((dir.content segment.filePath).length - tail.length)
        tail)) := by
  have hlen := h.length_le
  rw [List.length_drop] at hlen
  have hposition : (dir.content segment.filePath).length - offset - tail.length + offset =
      (dir.content segment.filePath).length - tail.length := by omega
  unfold Segment.readParseValidateFromOffset
  simp only [parse_stop segment.filePath h hstop, exec_ok_bind, exec_pure, List.length_drop]
  unfold tailReport
  split
  · rfl
  · simp only [Option.map_some, hposition]

/-- INTERNAL: a carried header is taken off the position of the tail.
SOURCE: wal/segment.rs:177-203 -/
theorem readFromPartial_stop {dir : Dir} {segment : Segment} {bytes tail : Bytes}
    {es : List WalEntry}
    (h : (walFraming crc).Reads (bytes ++ dir.content segment.filePath) es tail)
    (hstop : scanRecord crc tail = .stop)
    (htail : tail.length < HEADER_SIZE ∨ tail.length ≤ (dir.content segment.filePath).length) :
    segment.readParseValidateFromPartialRecord crc dir bytes = .ok (es, .ok
      (tailReport segment.filePath ((dir.content segment.filePath).length - tail.length)
        tail)) := by
  unfold Segment.readParseValidateFromPartialRecord
  simp only [parse_stop segment.filePath h hstop, exec_ok_bind, exec_pure, List.length_append]
  unfold tailReport
  by_cases hshort : tail.length < HEADER_SIZE
  · simp only [if_pos hshort]
  · have hsub : checkedSub (bytes.length + (dir.content segment.filePath).length - tail.length)
        bytes.length = .ok ((dir.content segment.filePath).length - tail.length) := by
      rw [checkedSub_ok (by omega)]
      congr 1
      omega
    simp only [if_neg hshort, hsub, exec_ok_bind]

/-- Reading a file gives the entries `es` and ends at `tail` without an error. -/
structure FileReads (crc : Bytes → UInt32) (cur : Cursor) (content : Bytes)
    (es : List WalEntry) (tail : Bytes) : Prop where
  reads : (walFraming crc).Reads (cur.buffer content) es tail
  stop : scanRecord crc tail = .stop
  offset_le : cur.offset ≤ content.length
  tail_le : tail.length < HEADER_SIZE ∨ tail.length ≤ content.length

/-- A file that ends without an error hands its records over to the table and what was found
at its end to the next file.
SOURCE: memtable.rs:257-348 -/
theorem recoverLoop_stop {dir : Dir} {segment : Segment} {segments : List Segment} {cur : Cursor}
    {currSize : ℕ} {table : Table} {content tail : Bytes} {es : List WalEntry}
    (hcontent : dir.content segment.filePath = content) (h : FileReads crc cur content es tail) :
    MemTable.recoverLoop crc dir (segment :: segments) cur.offset cur.carry currSize table =
      MemTable.recoverLoop crc dir segments
        (Cursor.after segment.filePath (content.length - tail.length) tail).offset
        (Cursor.after segment.filePath (content.length - tail.length) tail).carry
        (es.foldl MemTable.applyEntry (currSize, table)).1
        (es.foldl MemTable.applyEntry (currSize, table)).2 := by
  subst hcontent
  rw [Cursor.after_offset, Cursor.after_carry]
  cases cur with
  | start offset =>
    rw [Cursor.carry, Cursor.offset, MemTable.recoverLoop,
      readFromOffset_stop h.reads h.stop h.offset_le]
    rfl
  | carried p =>
    rw [Cursor.carry, Cursor.offset, MemTable.recoverLoop,
      readFromPartial_stop h.reads h.stop h.tail_le]
    rfl

/-- INTERNAL: a record that begins in a carried header, and is not complete, is an underflow.
SOURCE: wal/segment.rs:187 -/
theorem recoverLoop_underflow {dir : Dir} {segment : Segment} {segments : List Segment}
    {offset currSize : ℕ} {p : PartialWalEntry} {table : Table} {es : List WalEntry} {tail : Bytes}
    (h : (walFraming crc).Reads (p.bytes ++ dir.content segment.filePath) es tail)
    (hstop : scanRecord crc tail = .stop) (hheader : HEADER_SIZE ≤ tail.length)
    (hlong : (dir.content segment.filePath).length < tail.length) :
    MemTable.recoverLoop crc dir (segment :: segments) offset (some p) currSize table =
      .error .panic := by
  have hlen := h.length_le
  have hparse := parse_stop segment.filePath h hstop
  unfold tailReport at hparse
  rw [if_neg (Nat.not_lt.mpr hheader), List.length_append] at hparse
  have hsub : checkedSub (p.bytes.length + (dir.content segment.filePath).length - tail.length)
      p.bytes.length = .error .panic := by
    rw [List.length_append] at hlen
    unfold checkedSub
    rw [if_neg (by omega)]
  rw [MemTable.recoverLoop]
  unfold Segment.readParseValidateFromPartialRecord
  simp only [hparse, exec_ok_bind, hsub, exec_error_bind]

/-- INTERNAL: a body that the decoder panics on is a panic.
SOURCE: wal/segment.rs:228-240 -/
theorem recoverLoop_fault {dir : Dir} {segment : Segment} {segments : List Segment} {cur : Cursor}
    {currSize : ℕ} {table : Table} {es : List WalEntry} {tail : Bytes} {f : Fault}
    (h : (walFraming crc).Reads (cur.buffer (dir.content segment.filePath)) es tail)
    (hbad : scanRecord crc tail = .fail (.fault f)) :
    MemTable.recoverLoop crc dir (segment :: segments) cur.offset cur.carry currSize table =
      .error f := by
  have hparse := parse_fault segment.filePath h hbad
  cases cur with
  | start offset =>
    rw [Cursor.carry, Cursor.offset, MemTable.recoverLoop]
    unfold Segment.readParseValidateFromOffset
    rw [Cursor.buffer] at hparse
    simp only [hparse, exec_error_bind]
  | carried p =>
    rw [Cursor.carry, Cursor.offset, MemTable.recoverLoop]
    unfold Segment.readParseValidateFromPartialRecord
    rw [Cursor.buffer] at hparse
    simp only [hparse, exec_error_bind]

/-- What is reported for a corrupt record at `position` of a file: the record whose header was
carried over is the first one.
SOURCE: memtable.rs:324-340 -/
def corruptionReport (path : String) (position : ℕ) : Cursor → List WalEntry → RecoveryError
  | .carried p, [] => .corrupted p.segmentFilePath p.offset
  | _, _ => .corrupted path position

/-- A corrupt record ends the loop, and the position reported is where it begins: for a record
whose header was carried over, the place the header was found at.
SOURCE: memtable.rs:285-293, 324-340 -/
theorem recoverLoop_corrupted {dir : Dir} {segment : Segment} {segments : List Segment}
    {cur : Cursor} {currSize : ℕ} {table : Table} {content tail : Bytes} {es : List WalEntry}
    (hcontent : dir.content segment.filePath = content)
    (h : (walFraming crc).Reads (cur.buffer content) es tail)
    (hbad : scanRecord crc tail = .fail .corrupted) (hoffset : cur.offset ≤ content.length)
    (hcarry : cur.carry ≠ none → es ≠ [] → tail.length < content.length) :
    MemTable.recoverLoop crc dir (segment :: segments) cur.offset cur.carry currSize table =
      .ok ((es.foldl MemTable.applyEntry (currSize, table)).2,
        .error ((es.foldl MemTable.applyEntry (currSize, table)).1,
          corruptionReport segment.filePath (content.length - tail.length) cur es)) := by
  subst hcontent
  have hlen := h.length_le
  cases cur with
  | start offset =>
    simp only [Cursor.buffer, List.length_drop] at h hlen
    have hposition : (dir.content segment.filePath).length - offset - tail.length + offset =
        (dir.content segment.filePath).length - tail.length := by
      simp only [Cursor.offset] at hoffset
      omega
    rw [Cursor.carry, Cursor.offset, MemTable.recoverLoop]
    unfold Segment.readParseValidateFromOffset
    simp only [parse_corrupted segment.filePath h hbad, exec_ok_bind, exec_pure,
      List.length_drop, hposition, corruptionReport]
  | carried p =>
    simp only [Cursor.buffer, List.length_append] at h hlen
    rw [Cursor.carry, Cursor.offset, MemTable.recoverLoop]
    unfold Segment.readParseValidateFromPartialRecord
    simp only [parse_corrupted segment.filePath h hbad, exec_ok_bind, exec_pure,
      List.length_append]
    cases es with
    | nil => rfl
    | cons e es =>
      have hpast := hcarry (by simp [Cursor.carry]) (List.cons_ne_nil e es)
      have hposition : p.bytes.length + (dir.content segment.filePath).length - tail.length -
          p.bytes.length = (dir.content segment.filePath).length - tail.length := by omega
      rw [if_neg (show ¬(e :: es).isEmpty = true by simp), if_pos (by omega), hposition]
      rfl

end

end Rkvs.Analysis

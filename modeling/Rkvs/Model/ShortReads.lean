import Rkvs.Model.SstSegment

/-!
# Reads in pieces

`read_at` may deliver fewer bytes than there is room for. The three functions that read from a
segment file call it in loops until their buffer is full; a read of a regular file that is complete
at once is what `readTableEntry`, `readTableEntries` and `readAtMost` model.
-/

set_option autoImplicit false

namespace Rkvs.Model.Sst

open Rkvs.Library

/-- How many bytes more than one the calls of `read_at` deliver at most. -/
abbrev Schedule := ℕ → ℕ

/-- What a call of `read_at` delivers into a buffer with room for `room` bytes. -/
def deliver (schedule : Schedule) (call : ℕ) (file : Bytes) (offset room : ℕ) : Bytes :=
  (file.drop offset).take (min room (schedule call + 1))

/-- A loop that reads until the buffer is full or a call delivers nothing. `advance` is the step of
the two offsets, by what has been read and by what the last call has delivered. Every call but the
last one delivers a byte, so `fuel` of more than the length of the buffer is never used up. The
result is the buffer, with the number of bytes read and the offset in the file.
SOURCE: level/segment.rs:190-202, 231-239, 250-258, 264-273 -/
def readLoop (advance : ℕ → ℕ → ℕ) (schedule : Schedule) (file : Bytes) :
    ℕ → ℕ → Bytes → ℕ → ℕ → ℕ → Exec (Bytes × ℕ × ℕ)
  | 0, _, _, _, _, _ => .error .panic
  | fuel + 1, call, buf, bytesRead, bufOffset, currOffset =>
    if bytesRead < buf.length then do
      assert (bufOffset ≤ buf.length)
      let bytes := deliver schedule call file currOffset (buf.length - bufOffset)
      let buf := Dir.overwrite buf bufOffset bytes
      let bytesRead ← checkedAdd 64 bytesRead bytes.length
      let bufOffset ← checkedAdd 64 bufOffset (advance bytesRead bytes.length)
      let currOffset ← checkedAdd 64 currOffset (advance bytesRead bytes.length)
      if bytes = [] then return (buf, bytesRead, currOffset)
      else readLoop advance schedule file fuel (call + 1) buf bytesRead bufOffset currOffset
    else return (buf, bytesRead, currOffset)

/-- The loop on a buffer of zeros. -/
def fillBuf (advance : ℕ → ℕ → ℕ) (schedule : Schedule) (file : Bytes) (offset len : ℕ) :
    Exec (Bytes × ℕ × ℕ) :=
  readLoop advance schedule file (len + 1) 0 (List.replicate len 0) 0 0 offset

/-- `buf_offset += bytes_read; curr_offset += bytes_read` with the sum of all reads.
SOURCE: level/segment.rs:233-235, 252-254, 267-269 -/
def byTotal (bytesRead _ : ℕ) : ℕ := bytesRead

/-- The same with the bytes of the last read.
SOURCE: level/segment.rs:195-197 -/
def byPiece (_ currBytesRead : ℕ) : ℕ := currBytesRead

namespace Segment

/-- SOURCE: level/segment.rs:226-242 -/
def readTableEntriesIn (schedule : Schedule) (file : Bytes) (start stop : ℕ) :
    Exec (List SsTableEntry) := do
  let len ← checkedSub stop start
  let (buf, _) ← fillBuf byTotal schedule file start len
  SsTableEntry.vecFromBytes buf

/-- The second loop goes on where the first one has got to. Its calls have a schedule of their own.
SOURCE: level/segment.rs:245-276 -/
def readTableEntryIn (header body : Schedule) (file : Bytes) (offset : ℕ) : Exec SsTableEntry := do
  let (u32Buf, _, currOffset) ← fillBuf byTotal header file offset 4
  let entryLen := leValue u32Buf
  let (entryBuf, _) ← fillBuf byTotal body file currOffset entryLen
  SsTableEntry.fromBytes entryBuf

/-- SOURCE: level/segment.rs:180-205 -/
def readAtMostIn (schedule : Schedule) (segment : Segment) (offset maxBytes : ℕ) :
    Exec (List SsTableEntry) := do
  let bytesToRead := min (← checkedAdd 64 (← checkedSub segment.dataBlockEnd offset) 1) maxBytes
  let (entryBuf, totalBytesRead, _) ← fillBuf byPiece schedule segment.file offset bytesToRead
  SsTableEntry.dequeFromBytes (entryBuf.take totalBytesRead)

end Segment

end Rkvs.Model.Sst

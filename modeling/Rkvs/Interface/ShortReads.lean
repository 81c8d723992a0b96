import Rkvs.Interface.SstFiles
import Rkvs.Model.ShortReads

/-!
# Where pieces are put

A loop that moves on by the sum of all reads puts the second piece behind the first one and leaves
gaps in front of all others. Which bytes of a buffer are read depends on the schedule and on the
length only.
-/

set_option autoImplicit false

namespace Rkvs.Interface

open Rkvs.Library Rkvs.Model

section
variable (schedule : Sst.Schedule) (len : ℕ)

/-- How many bytes have been read before a call, and the place that it reads. -/
def progress : ℕ → ℕ × ℕ
  | 0 => (0, 0)
  | call + 1 =>
    let bytesRead := (progress call).1 + min (len - (progress call).2) (schedule call + 1)
    (bytesRead, (progress call).2 + bytesRead)

def bytesBefore (call : ℕ) : ℕ := (progress schedule len call).1

def place (call : ℕ) : ℕ := (progress schedule len call).2

/-- How many bytes a call delivers if the file goes on. -/
def piece (call : ℕ) : ℕ := min (len - place schedule len call) (schedule call + 1)

/-- No call is left for a place behind the buffer. -/
def Within : Prop :=
  ∀ call, place schedule len call < len → len ≤ place schedule len (call + 1) →
    len ≤ bytesBefore schedule len (call + 1) ∨ place schedule len (call + 1) = len

/-- Some call reads the byte. -/
def Covered (p : ℕ) : Prop :=
  ∃ call < len, place schedule len call ≤ p ∧
    p < place schedule len call + piece schedule len call

instance (p : ℕ) : Decidable (Covered schedule len p) :=
  inferInstanceAs (Decidable (∃ call < len, _ ∧ _))

/-- What is in the buffer if the file goes on with these bytes. -/
def filled (bytes : Bytes) : Bytes :=
  (List.range len).map fun p => if Covered schedule len p then bytes.getD p 0 else 0

end

/-- How many bytes too far on the second loop starts, for the pieces in which the four bytes of the
length come; `none` if the first loop leaves its buffer. -/
def headerShift (header : Sst.Schedule) : Option ℕ :=
  if 3 ≤ header 0 then some 0
  else if 2 ≤ header 0 + header 1 then some (header 0 + 1)
  else if header 0 = 0 ∧ header 1 = 1 then some 3
  else none

/-- The pieces leave the bytes of a range as they are. -/
structure RangeFilled (schedule : Sst.Schedule) (bytes : Bytes) : Prop where
  within : Within schedule bytes.length
  skipped : ∀ p, (h : p < bytes.length) → ¬Covered schedule bytes.length p → bytes[p] = 0

/-- The pieces make the entry at `offset` out of the bytes that they are read from. -/
structure EntryFilled (header body : Sst.Schedule) (file : Bytes) (offset : ℕ) (e : SsTableEntry) :
    Prop where
  within : Within body e.len
  headerRead : header 0 = 0 → header 1 = 1 → e.len < 2 ^ 24
  entryRead : ∃ shift, headerShift header = some shift ∧
    Resembles e (filled body e.len (file.drop (offset + 4 + shift)))

/-- In pieces the entries are read that are read at once: those of a range, the first of them, and as
many as fit from any place of a segment in the file. -/
structure ReadsSame (schedule header body : Sst.Schedule) (file : Bytes) (offset : ℕ)
    (es : List SsTableEntry) : Prop where
  entries : Sst.Segment.readTableEntriesIn schedule file offset (offset + (dataBlock es).length) =
    Sst.Segment.readTableEntries file offset (offset + (dataBlock es).length)
  entry : Sst.Segment.readTableEntryIn header body file offset =
    Sst.Segment.readTableEntry file offset
  atMost : ∀ segment : Sst.Segment, segment.file = file → segment.dataBlockEnd ≤ file.length →
    ∀ start maxBytes, Sst.Segment.readAtMostIn schedule segment start maxBytes =
      segment.readAtMost start maxBytes

end Rkvs.Interface

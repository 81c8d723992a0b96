import Rkvs.Analysis.SegmentNames
import Rkvs.Analysis.WalRecord
import Mathlib.Data.List.Chain
import Rkvs.Interface.LogHistory

/-!
# What a log looks like on disk

An undamaged log is a list of segments. In each stand, one after the other, the end of the
record that crosses over from the segment before, whole records, and what is left of the file
once the next record does not fit: its header and zeros, or fewer zeros than a header has
bytes. The files of such a list, and the records with their places, are computed for any
way `enc` of writing an entry as bytes, so that a damaged log has an image as well.
-/

set_option autoImplicit false

namespace Rkvs.Interface

open Rkvs.Library Rkvs.Model Rkvs.Analysis

/-- The number of bytes of a record. -/
def recordSpan (e : WalEntry) : ℕ := e.body.length + 8

/-- A record that does not fit into the rest of a segment, which is then filled with `zeros`.
Its header goes before them if there is room for it. -/
structure Crossing where
  entry : WalEntry
  split : Bool
  zeros : ℕ
  deriving DecidableEq, Repr

namespace Crossing

/-- The bytes of the record that stay in the segment before. -/
def cut (c : Crossing) : ℕ := if c.split then HEADER_SIZE else 0

/-- The end of the segment before. -/
def before (enc : WalEntry → Bytes) (c : Crossing) : Bytes :=
  (enc c.entry).take c.cut ++ List.replicate c.zeros 0

/-- The beginning of the segment after. -/
def after (enc : WalEntry → Bytes) (c : Crossing) : Bytes := (enc c.entry).drop c.cut

end Crossing

/-- One segment: the record that crosses over into it and the whole records behind. -/
structure SegmentImage where
  base : ℕ
  crossing : Option Crossing
  records : List WalEntry
  deriving DecidableEq, Repr

/-- The bytes of records one after the other. -/
def spanOf (es : List WalEntry) : ℕ := (es.map recordSpan).sum

/-- The records one after the other have the LSNs at which they stand. -/
def Numbered : ℕ → List WalEntry → Prop
  | _, [] => True
  | lsn, e :: es => e.sequenceNumber = lsn ∧ Numbered (lsn + recordSpan e) es

namespace SegmentImage

/-- The entries of the records that end in the segment. -/
def entries (img : SegmentImage) : List WalEntry :=
  (img.crossing.map Crossing.entry).toList ++ img.records

/-- The beginning of the file, which belongs to the record that crosses over. -/
def lead (enc : WalEntry → Bytes) (img : SegmentImage) : Bytes :=
  match img.crossing with
  | none => []
  | some c => c.after enc

def leadSpan (img : SegmentImage) : ℕ :=
  match img.crossing with
  | none => 0
  | some c => recordSpan c.entry - c.cut

/-- What stands in the file before it is filled up. -/
def written (enc : WalEntry → Bytes) (img : SegmentImage) : Bytes :=
  img.lead enc ++ img.records.flatMap enc

def size (img : SegmentImage) : ℕ := img.leadSpan + spanOf img.records

/-- The LSN at which the record behind this segment's records stands. -/
def endLsn (img : SegmentImage) : ℕ := img.base + img.size

end SegmentImage

/-- How a segment is filled up before the segments `imgs` follow; `rear` if none do. -/
def closing (enc : WalEntry → Bytes) (rear : Bytes) : List SegmentImage → Bytes
  | [] => rear
  | img :: _ =>
    match img.crossing with
    | none => []
    | some c => c.before enc

/-- The files of the segments, by the LSN at which they start, when `rear` stands at the end
of the last one. -/
def filesOf (enc : WalEntry → Bytes) (rear : Bytes) : List SegmentImage → List (ℕ × Bytes)
  | [] => []
  | img :: imgs => (img.base, img.written enc ++ closing enc rear imgs) :: filesOf enc rear imgs

section
variable (s : SegmentSize)

/-- A segment on its own: where it starts, what it holds, and that this fits. -/
structure SegmentImage.Valid (img : SegmentImage) : Prop where
  dvd : s.val ∣ img.base
  base_lt : img.base < 2 ^ 64
  size_le : img.size ≤ s.val
  wellFormed : ∀ e ∈ img.entries, WellFormed e
  span_le : ∀ e ∈ img.entries, recordSpan e ≤ s.val
  numbered : Numbered (img.base + img.leadSpan) img.records

/-- A record crosses over from one segment to the next: it did not fit, its header was written
if there was room for it, and the next segment is the one that holds its end. -/
structure Follows (img next : SegmentImage) : Prop where
  crosses : ∃ c, next.crossing = some c ∧ c.entry.sequenceNumber = img.endLsn ∧
    img.size + c.cut + c.zeros = s.val ∧ c.cut + c.zeros < recordSpan c.entry ∧
    (c.split = false → c.zeros < HEADER_SIZE) ∧
    next.base = s.baseOf (img.endLsn + recordSpan c.entry)

/-- A log as it is left by writing: the segments before the active one, and that one. -/
structure LogImage where
  closed : List SegmentImage
  active : SegmentImage
  valid : ∀ img ∈ closed ++ [active], img.Valid s
  chain : (closed ++ [active]).IsChain (Follows s)
  first : ∀ img, (closed ++ [active]).head? = some img → img.base = 0 ∧ img.crossing = none

namespace LogImage

variable {s}

/-- All segments in order. -/
def segments (img : LogImage s) : List SegmentImage := img.closed ++ [img.active]

def entries (img : LogImage s) : List WalEntry := img.segments.flatMap SegmentImage.entries

end LogImage

/-! ## The places of the records -/

/-- Records one after the other in a file. -/
def placeWhole (file : String) : ℕ → List WalEntry → List Record
  | _, [] => []
  | offset, e :: es => ⟨e, [⟨file, offset, recordSpan e⟩]⟩ ::
      placeWhole file (offset + recordSpan e) es

/-- The record that crosses over from one segment to the next. -/
def placeCrossing (img next : SegmentImage) (c : Crossing) : Record :=
  if c.split then
    ⟨c.entry, [⟨s.fileName img.base, img.size, HEADER_SIZE⟩,
      ⟨s.fileName next.base, 0, recordSpan c.entry - HEADER_SIZE⟩]⟩
  else ⟨c.entry, [⟨s.fileName next.base, 0, recordSpan c.entry⟩]⟩

/-- The record at the beginning of a segment, where `previous` is the segment before it. -/
def placeLead (previous : Option SegmentImage) (img : SegmentImage) : List Record :=
  match previous, img.crossing with
  | some before, some c => [placeCrossing s before img c]
  | _, _ => []

/-- The records that end in the segments, where `previous` is the segment before them. -/
def placed : Option SegmentImage → List SegmentImage → List Record
  | _, [] => []
  | previous, img :: imgs =>
    placeLead s previous img ++ placeWhole (s.fileName img.base) img.leadSpan img.records ++
      placed (some img) imgs

end

end Rkvs.Interface

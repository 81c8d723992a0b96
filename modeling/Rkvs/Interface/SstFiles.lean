import Rkvs.Model.SstSegment

/-!
# What a segment file of the SSTable holds

A data block of entries in the order of their keys, each with its length in front, an index of
some of the entries, and the footer. `Stored seg es` says that an opened segment is such a file
for the entries `es`.
-/

set_option autoImplicit false

namespace Rkvs.Interface

open Rkvs.Library Rkvs.Model

/-- The length of an entry and its sequence number fit their fields. -/
structure EntryFits (e : SsTableEntry) : Prop where
  len_lt : e.len < 2 ^ 32
  sequenceNumber_lt : e.sequenceNumber < 2 ^ 64

/-- The bytes of an entry, with any mark in the place where a tombstone has a one. -/
def markedBytes (e : SsTableEntry) (mark : UInt8) : Bytes :=
  leBytes 4 (asBytes e.key).length ++ asBytes e.key ++
    leBytes 4 (e.value.elim 0 fun v => (asBytes v).length) ++ [mark] ++ e.value.elim [] asBytes ++
    leBytes 8 e.sequenceNumber

/-- The bytes are those of the entry, but that the mark of a value can be any but a one. -/
def Resembles (e : SsTableEntry) (bytes : Bytes) : Prop :=
  ∃ mark, bytes = markedBytes e mark ∧ (mark = 1 ↔ e.value = none)

/-- An entry with its length in front. -/
def frame (e : SsTableEntry) : Bytes := leBytes 4 e.toBytes.length ++ e.toBytes

def dataBlock (es : List SsTableEntry) : Bytes := es.flatMap frame

/-- The index entries of all entries of a data block that starts at `offset`. -/
def indexPlaces : ℕ → List SsTableEntry → List Sst.SegmentIndexEntry
  | _, [] => []
  | offset, e :: es => ⟨e.key, offset⟩ :: indexPlaces (offset + (frame e).length) es

/-- The bytes of a segment file with this index. -/
def segmentBytes (es : List SsTableEntry) (indices : List Sst.SegmentIndexEntry) : Bytes :=
  dataBlock es ++ indices.flatMap Sst.SegmentIndexEntry.toBytes ++
    Sst.footerToBytes (dataBlock es).length

/-- The keys are in strictly ascending order. -/
def Ascending (es : List SsTableEntry) : Prop := es.Pairwise fun e f => e.key < f.key

/-- The entry with a key. -/
def entryFor (es : List SsTableEntry) (key : String) : Option SsTableEntry :=
  es.find? fun e => e.key = key

/-- A table holds the entries. -/
def Holds (table : Table) (es : List SsTableEntry) : Prop :=
  ∀ key, table.lookup key =
    (entryFor es key).map fun e => ⟨e.value, e.sequenceNumber⟩

/-- Entries are written to a new file, from a table or with a writer. -/
inductive Written (es : List SsTableEntry) (factor : ℕ) (dir dir' : Dir) (path : String) : Prop
  | memtable (table : Table) (n : ℕ) (hholds : Holds table es)
      (hname : Sst.Segment.determineSegmentFilename 0 n = .ok path) (hfresh : path ∉ dir.names)
      (hrun : (Sst.SegmentWriter.segmentFileFromMemtable table n factor).run dir = .ok path dir')
  | writer (levelNumber n : ℕ) (w w' w'' : Sst.SegmentWriter) (d d' : Dir)
      (hname : Sst.Segment.determineSegmentFilename levelNumber n = .ok path)
      (hfresh : path ∉ dir.names)
      (hcreate : (Sst.SegmentWriter.createNewSegment levelNumber n factor).run dir = .ok w d)
      (hentries : (es.foldlM Sst.SegmentWriter.writeEntry w).run d = .ok w' d')
      (hfooter : w'.writeIndexAndFooter.run d' = .ok w'' dir')

/-- An opened segment that holds the entries. -/
structure Stored (seg : Sst.Segment) (es : List SsTableEntry) : Prop where
  ascending : Ascending es
  fits : ∀ e ∈ es, EntryFits e
  data : ∃ rest, rest ≠ [] ∧ seg.file = dataBlock es ++ rest
  dataEnd : seg.dataBlockEnd = (dataBlock es).length
  index : seg.index.indices.Sublist (indexPlaces 0 es)
  first : es.head?.map SsTableEntry.key = some seg.firstKey
  last : es.getLast?.map SsTableEntry.key = some seg.lastKey

/-- An opened segment whose file has the entries in its data block, in whatever order. -/
structure Opened (seg : Sst.Segment) (es : List SsTableEntry) : Prop where
  fits : ∀ e ∈ es, EntryFits e
  data : ∃ rest, rest ≠ [] ∧ seg.file = dataBlock es ++ rest
  dataEnd : seg.dataBlockEnd = (dataBlock es).length
  index : seg.index.indices.Sublist (indexPlaces 0 es)
  first : es.head?.map SsTableEntry.key = some seg.firstKey
  last : es.getLast?.map SsTableEntry.key = some seg.lastKey

/-- The segment answers lookups with the entries, and its key range is theirs. -/
structure Answers (seg : Sst.Segment) (es : List SsTableEntry) : Prop where
  ascending : Ascending es
  first : es.head?.map SsTableEntry.key = some seg.firstKey
  last : es.getLast?.map SsTableEntry.key = some seg.lastKey
  get : ∀ key, seg.get key = .ok (entryFor es key)

end Rkvs.Interface

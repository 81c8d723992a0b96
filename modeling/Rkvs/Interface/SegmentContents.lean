import Rkvs.Interface.SstFiles

/-!
# Which entries a writer indexes

Both writers count the entries and index every `factor`-th of them. A flush counts from zero, so that
it indexes the first entry; a segment writer counts from one.
-/

set_option autoImplicit false

namespace Rkvs.Interface

open Rkvs.Library Rkvs.Model

/-- The index of entries that start at `offset`, the first of them being the one with the number
`counter`. -/
def indexedPlaces (factor : ℕ) : ℕ → ℕ → List SsTableEntry → List Sst.SegmentIndexEntry
  | _, _, [] => []
  | counter, offset, e :: es =>
    (if counter % factor = 0 then [⟨e.key, offset⟩] else []) ++
      indexedPlaces factor (counter + 1) (offset + (frame e).length) es

/-- Entries are written to a new file by a writer that counts them from `first` on. -/
inductive WrittenFrom (es : List SsTableEntry) (factor : ℕ) (dir dir' : Dir) (path : String) :
    ℕ → Prop
  | memtable (table : Table) (n : ℕ) (hholds : Holds table es)
      (hname : Sst.Segment.determineSegmentFilename 0 n = .ok path) (hfresh : path ∉ dir.names)
      (hrun : (Sst.SegmentWriter.segmentFileFromMemtable table n factor).run dir = .ok path dir') :
      WrittenFrom es factor dir dir' path 0
  | writer (levelNumber n : ℕ) (w w' w'' : Sst.SegmentWriter) (d d' : Dir)
      (hname : Sst.Segment.determineSegmentFilename levelNumber n = .ok path)
      (hfresh : path ∉ dir.names)
      (hcreate : (Sst.SegmentWriter.createNewSegment levelNumber n factor).run dir = .ok w d)
      (hentries : (es.foldlM Sst.SegmentWriter.writeEntry w).run d = .ok w' d')
      (hfooter : w'.writeIndexAndFooter.run d' = .ok w'' dir') :
      WrittenFrom es factor dir dir' path 1

/-- The length that a writer expects of its file, and compares with its target.
SOURCE: level/segment.rs:412-414 -/
def expectedLength (w : Sst.SegmentWriter) : ℕ :=
  w.currSize + w.index.len + Sst.SEGMENT_FOOTER_LEN

/-- The place of the last of `n` entries that gets into the index if they are counted from `first`
on; zero if none does. -/
def lastIndexed (first factor n : ℕ) : ℕ :=
  Nat.findGreatest (fun i => (first + i) % factor = 0) (n - 1)

end Rkvs.Interface

import Rkvs.Interface.SegmentContents

/-!
# Segments over old files

Entries are written to a path where a file may be. The new segment should be the one that would be
there if the path had been free.
-/

set_option autoImplicit false

namespace Rkvs.Interface

open Rkvs.Library Rkvs.Model

/-- Entries are written to a path, whatever is there, by a writer that counts them from `first` on. -/
inductive WrittenTo (es : List SsTableEntry) (factor : ℕ) (dir dir' : Dir) (path : String) :
    ℕ → Prop
  | memtable (table : Table) (n : ℕ) (hholds : Holds table es)
      (hname : Sst.Segment.determineSegmentFilename 0 n = .ok path)
      (hrun : (Sst.SegmentWriter.segmentFileFromMemtable table n factor).run dir = .ok path dir') :
      WrittenTo es factor dir dir' path 0
  | writer (levelNumber n : ℕ) (w w' w'' : Sst.SegmentWriter) (d d' : Dir)
      (hname : Sst.Segment.determineSegmentFilename levelNumber n = .ok path)
      (hcreate : (Sst.SegmentWriter.createNewSegment levelNumber n factor).run dir = .ok w d)
      (hentries : (es.foldlM Sst.SegmentWriter.writeEntry w).run d = .ok w' d')
      (hfooter : w'.writeIndexAndFooter.run d' = .ok w'' dir') :
      WrittenTo es factor dir dir' path 1

/-- The bytes of a segment file at a fresh path. -/
def freshBytes (es : List SsTableEntry) (factor first : ℕ) : Bytes :=
  segmentBytes es (indexedPlaces factor first 0 es)

/-- The file opens to a segment that answers with the entries, and is what it would be at a fresh
path. -/
def OpensAsFresh (es : List SsTableEntry) (factor first : ℕ) (d : Dir) (path : String) : Prop :=
  ∃ s, Sst.Segment.fromFile d path = .ok (.ok s) ∧ Answers s es ∧ s.file = freshBytes es factor first

end Rkvs.Interface

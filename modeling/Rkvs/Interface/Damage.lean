import Rkvs.Interface.LogHistory

/-!
# Damage to the files of a log

The two kinds of damage that recovery is about: the bytes of a record are overwritten where
they lie, and a file is cut to a shorter length.
-/

set_option autoImplicit false

namespace Rkvs.Interface

open Rkvs.Model

/-- The contents of a file after `new` was written over what stood at `offset`. -/
def overwriteAt (content : Bytes) (offset : ℕ) (new : Bytes) : Bytes :=
  content.take offset ++ new ++ content.drop (offset + new.length)

/-- The directory after `bytes` were written over the places of a record, in order. -/
def overwrite : Dir → List Extent → Bytes → Dir
  | dir, [], _ => dir
  | dir, x :: xs, bytes =>
    let content := overwriteAt (dir.content x.file) x.offset (bytes.take x.length)
    overwrite (dir.put x.file content) xs (bytes.drop x.length)

/-- The directory after a file was cut to at most `length` bytes. -/
def cutFile (dir : Dir) (name : String) (length : ℕ) : Dir :=
  dir.put name ((dir.content name).take length)

/-- The directory of a log after its last file was cut to at most `length` bytes. -/
def tornDir (log : Log) (length : ℕ) : Dir :=
  cutFile log.wal.dir log.wal.activeSegment.filePath length

/-- A record is still there when all its bytes are. -/
def Record.isPresent (dir : Dir) (r : Record) : Bool :=
  r.extents.all fun x => x.offset + x.length ≤ (dir.content x.file).length

end Rkvs.Interface

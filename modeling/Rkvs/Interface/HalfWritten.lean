import Rkvs.Interface.SstFiles
import Rkvs.Model.SstRecovery

/-!
# Half-written segment files

What a restart is to do with a file that holds only the first bytes of a segment: it is found to be
corrupted, gets removed, and the files behind it are opened.
-/

set_option autoImplicit false

namespace Rkvs.Interface

open Rkvs.Library Rkvs.Model

/-- The file is not taken for a segment. If the file system lets it be removed, opening goes on
without it. -/
structure Recognised (d : Dir) (path : String) : Prop where
  corrupted : Sst.Segment.fromFile d path = .ok (.error .corrupted)
  removed : d.faults = [] → path ∈ d.names → ∀ others,
    (Sst.LevelContainer.openSegments (path :: others)).run d =
      (Sst.LevelContainer.openSegments others).run (d.removeFile path)

end Rkvs.Interface

import Rkvs.Interface.Recovery

/-!
# The files of a restart

What a restart finds in a directory whose files are all complete, and which of the files are left
when it returns.
-/

set_option autoImplicit false

namespace Rkvs.Interface

open Rkvs.Library Rkvs.Model

/-- Every file is a complete segment file. -/
def CompleteFiles (dir : Dir) : Prop :=
  ∀ name ∈ dir.names, ∃ s, Sst.Segment.fromFile dir name = .ok (.ok s)

/-- The segments of the complete segment files. -/
def segmentsIn (dir : Dir) : List Sst.Segment := dir.names.filterMap fun name =>
  match Sst.Segment.fromFile dir name with
  | .ok (.ok s) => some s
  | _ => none

/-- The segments of no level are over the target that a restart computes for it. -/
def NoLevelOver (levelZeroTargetSize levelSizeFactor : ℕ) (segments : List Sst.Segment) : Prop :=
  fileSizes (segments.filter fun s => s.levelNumber = 0) ≤ levelZeroTargetSize ∧
    ∀ s ∈ segments, 0 < s.levelNumber →
      fileSizes (segments.filter fun t => t.levelNumber = s.levelNumber) ≤
        levelZeroTargetSize * s.levelNumber * levelSizeFactor

/-- Every segment of a container has its file in the directory. -/
def AllPresent (c : Sst.LevelContainer) (dir : Dir) : Prop :=
  ∀ s ∈ allSegments c, s.filepath ∈ dir.names

end Rkvs.Interface

import Rkvs.Analysis.WalAppend
import Rkvs.Analysis.WriteOutcome
import Rkvs.Interface.FailedWrites

/-!
# File operations that fail

What the parts of an append do when their file operations may fail: a part that returns does what it
does when nothing fails, and one that fails leaves the front of what it was to write.
-/

set_option autoImplicit false

namespace Rkvs.Analysis

open Rkvs.Library Rkvs.Model Rkvs.Interface

/-- The directory with no failure to come. -/
def calmDir (d : Dir) : Dir := { d with faults := [] }

/-- INTERNAL: the log without the faults to come. -/
def calm (w : Wal) : Wal := { w with dir := calmDir w.dir }

/-- The log with bytes behind the active file that it has not counted. -/
def withTail (w : Wal) (bytes : Bytes) : Wal :=
  let path := w.activeSegment.filePath
  { w with dir := w.dir.put path (w.dir.content path ++ bytes) }

/-! ## The directory -/

/-- INTERNAL: creating a file. -/
theorem createFile_replays (name : String) : Replays calmDir (Dir.createFile name) := by
  rintro ⟨files, distinct, faults⟩ a d' hrun
  cases faults with
  | nil =>
    cases hrun
    rfl
  | cons ev evs =>
    cases ev with
    | ok =>
      cases hrun
      rfl
    | fail written => cases hrun

/-- INTERNAL: writing to a file. -/
theorem writeAll_replays (name : String) (buf : Bytes) :
    Replays calmDir (Dir.writeAll name buf) := by
  rintro ⟨files, distinct, faults⟩ a d' hrun
  unfold Dir.writeAll at hrun ⊢
  by_cases hbuf : buf = []
  · rw [if_neg (not_not.mpr hbuf)] at hrun ⊢
    cases hrun
    rfl
  · rw [if_pos hbuf] at hrun ⊢
    cases faults with
    | nil =>
      cases hrun
      rfl
    | cons ev evs =>
      cases ev with
      | ok =>
        cases hrun
        rfl
      | fail written => cases hrun

/-- INTERNAL: a file that was created. -/
theorem createFile_outcome {name : String} {d d' : Dir}
    (hrun : (Dir.createFile name).run d = .ok () d') :
    d.faults.headD .ok = .ok ∧ d'.faults = d.faults.tail := by
  obtain ⟨files, distinct, faults⟩ := d
  cases faults with
  | nil =>
    cases hrun
    exact ⟨rfl, rfl⟩
  | cons ev evs =>
    cases ev with
    | ok =>
      cases hrun
      exact ⟨rfl, rfl⟩
    | fail written => cases hrun

/-- INTERNAL: a file that was not created. -/
theorem createFile_error {name : String} {d d' : Dir} {e : Fault}
    (hrun : (Dir.createFile name).run d = .error e d') :
    d.faults.headD .ok ≠ .ok ∧ calmDir d' = calmDir d := by
  obtain ⟨files, distinct, faults⟩ := d
  cases faults with
  | nil => cases hrun
  | cons ev evs =>
    cases ev with
    | ok => cases hrun
    | fail written =>
      cases hrun
      exact ⟨by simp, rfl⟩

/-- INTERNAL: bytes that were written. -/
theorem writeAll_outcome {name : String} {buf : Bytes} {d d' : Dir}
    (hrun : (Dir.writeAll name buf).run d = .ok () d') :
    writeOutcome buf.length d.faults = (none, d'.faults) := by
  obtain ⟨files, distinct, faults⟩ := d
  unfold Dir.writeAll at hrun
  unfold writeOutcome
  by_cases hbuf : buf = []
  · rw [if_neg (not_not.mpr hbuf)] at hrun
    rw [if_pos (List.length_eq_zero_iff.mpr hbuf)]
    cases hrun
    rfl
  · rw [if_pos hbuf] at hrun
    rw [if_neg fun h => hbuf (List.length_eq_zero_iff.mp h)]
    cases faults with
    | nil =>
      cases hrun
      rfl
    | cons ev evs =>
      cases ev with
      | ok =>
        cases hrun
        rfl
      | fail written => cases hrun

/-- A write that fails has written a proper prefix. -/
theorem writeAll_error {name : String} {buf : Bytes} {d d' : Dir} {e : Fault}
    (hrun : (Dir.writeAll name buf).run d = .error e d') :
    ∃ k, (writeOutcome buf.length d.faults).1 = some k ∧ k < buf.length ∧
      calmDir d' = (calmDir d).put name (d.content name ++ buf.take k) := by
  obtain ⟨files, distinct, faults⟩ := d
  unfold Dir.writeAll at hrun
  by_cases hbuf : buf = []
  · rw [if_neg (not_not.mpr hbuf)] at hrun
    cases hrun
  · have hpos := List.length_pos_iff.mpr hbuf
    rw [if_pos hbuf] at hrun
    unfold writeOutcome
    rw [if_neg (by omega)]
    cases faults with
    | nil => cases hrun
    | cons ev evs =>
      cases ev with
      | ok => cases hrun
      | fail written =>
        cases hrun
        refine ⟨min written (buf.length - 1), rfl, by omega, ?_⟩
        rw [← List.take_take, ← List.dropLast_eq_take]
        rfl

/-! ## The parts of an append -/

/-- INTERNAL: a step that does not touch the log. -/
theorem liftExec_replays {α : Type} (x : Exec α) : Replays calm (liftExec x) := by
  intro w a w' hrun
  obtain ⟨rfl, rfl⟩ := run_liftExec_eq_ok hrun
  rfl

/-- INTERNAL: a step on the directory of the log. -/
theorem onDir_replays {α : Type} {x : EStateM Fault Dir α} (hx : Replays calmDir x) :
    Replays calm (Wal.onDir x) := by
  intro w a w' hrun
  obtain ⟨d, hdir, rfl⟩ := run_onPart_eq_ok hrun
  exact run_onPart_ok Wal.dirPart (hx _ _ _ hdir)

/-- INTERNAL: appending to the active segment. -/
theorem segmentAppend_replays (buf : Bytes) : Replays calm (Wal.segmentAppend buf) := by
  unfold Wal.segmentAppend
  refine Replays.get_bind (fun w => rfl) fun w => ?_
  refine (liftExec_replays _).bind fun fileSize => ?_
  refine (liftExec_replays _).bind fun _ => ?_
  refine (onDir_replays (writeAll_replays _ _)).bind fun _ => ?_
  exact Replays.modify fun w => rfl

/-- INTERNAL: filling it up. -/
theorem segmentPad_replays : Replays calm Wal.segmentPad := by
  unfold Wal.segmentPad
  refine Replays.get_bind (fun w => rfl) fun w => ?_
  refine (liftExec_replays _).bind fun bufSize => ?_
  exact segmentAppend_replays _

/-- INTERNAL: going on in the next segment. -/
theorem rotate_replays (lsn : ℕ) : Replays calm (Wal.rotate lsn) := by
  unfold Wal.rotate
  refine Replays.get_bind (fun w => rfl) fun w => ?_
  refine (liftExec_replays _).bind fun _ => ?_
  refine (onDir_replays (createFile_replays _)).bind fun _ => ?_
  refine Replays.get_bind (fun w => rfl) fun w => ?_
  refine (liftExec_replays _).bind fun segment => ?_
  exact Replays.modify fun w => rfl

/-- An append that returns does what it does when nothing fails. -/
theorem append_replays (crc : Bytes → UInt32) (e : WalEntry) : Replays calm (Wal.append crc e) := by
  unfold Wal.append
  refine (liftExec_replays _).bind fun buf => ?_
  refine Replays.get_bind (fun w => rfl) fun w => ?_
  refine (liftExec_replays _).bind fun freeSpace => ?_
  split
  · exact segmentAppend_replays _
  split
  · refine (segmentAppend_replays _).bind fun _ => ?_
    refine segmentPad_replays.bind fun _ => ?_
    refine (liftExec_replays _).bind fun lsn => ?_
    refine (rotate_replays _).bind fun _ => ?_
    exact segmentAppend_replays _
  · refine segmentPad_replays.bind fun _ => ?_
    refine (liftExec_replays _).bind fun lsn => ?_
    refine (rotate_replays _).bind fun _ => ?_
    exact segmentAppend_replays _

section
variable {w w' : Wal} {buf : Bytes} {kind : ErrorKind}

/-- INTERNAL: bytes that were written to the active segment, which were counted.
SOURCE: wal/segment.rs:102-106 -/
theorem segmentAppend_outcome (hrun : (Wal.segmentAppend buf).run w = .ok () w') :
    writeOutcome buf.length w.dir.faults = (none, w'.dir.faults) := by
  unfold Wal.segmentAppend at hrun
  rw [run_bind_ok (EStateM.run_get w)] at hrun
  obtain ⟨_, _, hadd, hrun⟩ := run_bind_eq_ok hrun
  rw [(run_liftExec_eq_ok hadd).2] at hrun
  obtain ⟨_, _, hassert, hrun⟩ := run_bind_eq_ok hrun
  rw [(run_liftExec_eq_ok hassert).2] at hrun
  obtain ⟨_, mid, hwrite, hrun⟩ := run_bind_eq_ok hrun
  cases hrun
  obtain ⟨d, hdir, rfl⟩ := run_onPart_eq_ok hwrite
  exact writeAll_outcome hdir

/-- Bytes of which only the first `k` were written to the active segment, and not counted.
SOURCE: wal/segment.rs:102-106 -/
theorem segmentAppend_error (hrun : (Wal.segmentAppend buf).run w = .error (.io kind) w') :
    ∃ k, (writeOutcome buf.length w.dir.faults).1 = some k ∧ k < buf.length ∧
      w.activeSegment.fileSize + buf.length % 2 ^ 32 ≤ w.activeSegment.maxSize ∧
      calm w' = withTail (calm w) (buf.take k) := by
  unfold Wal.segmentAppend at hrun
  rw [run_bind_ok (EStateM.run_get w)] at hrun
  obtain hadd | ⟨_, _, hadd, hrun⟩ := run_bind_eq_error hrun
  · exact absurd (run_liftExec_eq_error hadd).1 checkedAdd_ne_io
  obtain ⟨hsize, hmid⟩ := run_liftExec_eq_ok hadd
  rw [hmid] at hrun
  obtain hassert | ⟨_, _, hassert, hrun⟩ := run_bind_eq_error hrun
  · exact absurd (run_liftExec_eq_error hassert).1 assert_ne_io
  obtain ⟨hroom, hmid⟩ := run_liftExec_eq_ok hassert
  rw [hmid] at hrun
  have hroom := of_assert hroom
  rw [← (checkedAdd_eq_ok hsize).1] at hroom
  obtain hwrite | ⟨_, _, -, hmodify⟩ := run_bind_eq_error hrun
  swap
  · cases hmodify
  obtain ⟨d, hdir, rfl⟩ := run_onPart_eq_error hwrite
  obtain ⟨k, hk, hlt, hcalm⟩ := writeAll_error hdir
  refine ⟨k, hk, hlt, hroom, ?_⟩
  show { calm w with dir := calmDir d } = _
  rw [hcalm]
  rfl

variable {s : SegmentSize} {lsn : ℕ}

/-- INTERNAL: filling up is appending zeros.
SOURCE: wal/segment.rs:108-113 -/
theorem segmentPad_run (h : Sound s w) : Wal.segmentPad.run w =
    (Wal.segmentAppend (List.replicate (s.val - w.activeSegment.fileSize) 0)).run w := by
  have hle : w.activeSegment.fileSize ≤ w.activeSegment.maxSize := h.maxSize ▸ h.fileSize_le
  unfold Wal.segmentPad
  rw [run_bind_ok (EStateM.run_get w)]
  dsimp only
  rw [checkedSub_ok hle, run_bind_ok (run_liftExec_ok ..), h.maxSize]

/-- INTERNAL: the faults left after filling up the active segment. -/
theorem segmentPad_outcome (h : Sound s w) (hrun : Wal.segmentPad.run w = .ok () w') :
    writeOutcome (s.val - w.activeSegment.fileSize) w.dir.faults = (none, w'.dir.faults) := by
  rw [segmentPad_run h] at hrun
  have houtcome := segmentAppend_outcome hrun
  rwa [List.length_replicate] at houtcome

/-- INTERNAL: what a failure leaves when the active segment is filled up. -/
theorem segmentPad_error (h : Sound s w) (hrun : Wal.segmentPad.run w = .error (.io kind) w') :
    ∃ k, (writeOutcome (s.val - w.activeSegment.fileSize) w.dir.faults).1 = some k ∧
      k < s.val - w.activeSegment.fileSize ∧
      calm w' = withTail (calm w) (List.replicate k 0) := by
  rw [segmentPad_run h] at hrun
  obtain ⟨k, hk, hlt, -, hleft⟩ := segmentAppend_error hrun
  rw [List.length_replicate] at hk hlt
  rw [List.take_replicate, Nat.min_eq_left hlt.le] at hleft
  exact ⟨k, hk, hlt, hleft⟩

/-- INTERNAL: a segment that was opened.
SOURCE: wal.rs:64-71 -/
theorem rotate_outcome (hrun : (Wal.rotate lsn).run w = .ok () w') :
    w.dir.faults.headD .ok = .ok ∧ w'.dir.faults = w.dir.faults.tail := by
  unfold Wal.rotate at hrun
  rw [run_bind_ok (EStateM.run_get w)] at hrun
  dsimp only at hrun
  obtain ⟨⟨⟩, _, hsize, hrun⟩ := run_bind_eq_ok hrun
  rw [(run_liftExec_eq_ok hsize).2] at hrun
  generalize determineSegmentFilename 0 lsn w.segmentMaxSize = path at hrun
  obtain ⟨_, mid, hcreate, hrun⟩ := run_bind_eq_ok hrun
  rw [run_bind_ok (EStateM.run_get mid)] at hrun
  obtain ⟨_, _, hnew, hrun⟩ := run_bind_eq_ok hrun
  rw [(run_liftExec_eq_ok hnew).2] at hrun
  cases hrun
  obtain ⟨d, hdir, rfl⟩ := run_onPart_eq_ok hcreate
  exact createFile_outcome hdir

/-- A segment that was not opened, since its file was not created.
SOURCE: wal.rs:64-71 -/
theorem rotate_error (hmax : w.segmentMaxSize = s.val) (hlsn : lsn < 2 ^ 64)
    (hrun : (Wal.rotate lsn).run w = .error (.io kind) w') :
    w.dir.faults.headD .ok ≠ .ok ∧ calm w' = calm w := by
  unfold Wal.rotate at hrun
  rw [run_bind_ok (EStateM.run_get w)] at hrun
  dsimp only at hrun
  rw [hmax, s.assert_val, run_bind_ok (run_liftExec_ok ..),
    show determineSegmentFilename 0 lsn s.val = s.fileName lsn from rfl] at hrun
  obtain hcreate | ⟨_, mid, -, hrun⟩ := run_bind_eq_error hrun
  · obtain ⟨d, hdir, rfl⟩ := run_onPart_eq_error hcreate
    obtain ⟨hfails, hcalm⟩ := createFile_error hdir
    refine ⟨hfails, ?_⟩
    show { calm w with dir := calmDir d } = _
    rw [hcalm]
    rfl
  · -- the name of the new segment can be parsed
    rw [run_bind_ok (EStateM.run_get mid)] at hrun
    have hnew : ∃ segment, Segment.new mid.dir (s.fileName lsn) s.val = .ok segment := by
      unfold Segment.new
      rw [s.parseBaseLsn_fileName hlsn]
      exact ⟨_, rfl⟩
    obtain ⟨segment, hnew⟩ := hnew
    obtain hbad | ⟨_, _, -, hmodify⟩ := run_bind_eq_error hrun
    · exact absurd ((run_liftExec_eq_error hbad).1.symm.trans hnew) (by simp)
    · cases hmodify

end

end Rkvs.Analysis

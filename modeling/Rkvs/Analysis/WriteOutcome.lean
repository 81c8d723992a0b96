import Rkvs.Analysis.WalRecord
import Rkvs.Analysis.SegmentNames
import Rkvs.Interface.ReachableWorker
import Rkvs.Library.Outcome

/-!
# How a write can end

Whatever the directory holds and whichever file operations fail, a write of a worker whose
sizes fit its segments ends in such a worker again, or in a panic. It returns only if a certain
condition holds and panics only if it does not, so that with no fault to come the condition
decides.
-/

set_option autoImplicit false

namespace Rkvs.Analysis

open Rkvs.Library Rkvs.Model Rkvs.Interface

/-- The sizes of the log fit its segments. -/
structure Sound (s : SegmentSize) (w : Wal) : Prop where
  segmentMaxSize : w.segmentMaxSize = s.val
  maxSize : w.activeSegment.maxSize = s.val
  fileSize_le : w.activeSegment.fileSize ≤ s.val

/-- From `w` the computation returns in a sound state with `Q`, which it does only if `P`; it
fails in a sound state, which takes a fault; or it panics, which it does only if not `P`. -/
def Guarded {α : Type} (s : SegmentSize) (P : Prop) (x : EStateM Fault Wal α) (w : Wal)
    (Q : α → Wal → Prop) : Prop :=
  Runs x w (fun a w' => P ∧ Sound s w' ∧ (w.dir.faults = [] → w'.dir.faults = []) ∧ Q a w')
    fun e w' => match e with
      | .io _ => Sound s w' ∧ w.dir.faults ≠ []
      | .panic => ¬P

namespace Guarded

variable {α β : Type} {s : SegmentSize} {P P' : Prop} {x : EStateM Fault Wal α} {w : Wal}
  {Q : α → Wal → Prop}

/-- A sequence returns only if both parts do. -/
theorem bind {f : α → EStateM Fault Wal β} {R : β → Wal → Prop} (hx : Guarded s P x w Q)
    (hf : ∀ a w', P → Sound s w' → Q a w' → Guarded s P' (f a) w' R) :
    Guarded s (P ∧ P') (x >>= f) w R := by
  unfold Guarded Runs at hx ⊢
  rw [EStateM.run_bind]
  cases hrun : x.run w with
  | ok a mid =>
    rw [hrun] at hx
    obtain ⟨hP, hmid, hclear, hQ⟩ := hx
    have hrest := hf a mid hP hmid hQ
    unfold Guarded Runs at hrest
    simp only
    cases hrun' : (f a).run mid with
    | ok b w' =>
      rw [hrun'] at hrest
      obtain ⟨hP', hw', hclear', hR⟩ := hrest
      exact ⟨⟨hP, hP'⟩, hw', fun h => hclear' (hclear h), hR⟩
    | error e w' =>
      rw [hrun'] at hrest
      cases e with
      | io kind => exact ⟨hrest.1, fun h => hrest.2 (hclear h)⟩
      | panic => exact fun h => hrest h.2
  | error e w' =>
    rw [hrun] at hx
    cases e with
    | io kind => exact hx
    | panic => exact fun h => hx h.1

/-- The condition may be put in other words and the result weakened. -/
theorem mono {Q' : α → Wal → Prop} (h : Guarded s P x w Q) (hP : P ↔ P')
    (hQ : ∀ a w', Q a w' → Q' a w') : Guarded s P' x w Q' := by
  refine Runs.mono h ?_ ?_
  · rintro a w' ⟨hp, hsound, hclear, hq⟩
    exact ⟨hP.mp hp, hsound, hclear, hQ a w' hq⟩
  · intro e w' he
    cases e with
    | io kind => exact he
    | panic => exact fun hp => he (hP.mpr hp)

/-- INTERNAL: looking at the state. -/
theorem get (h : Sound s w) :
    Guarded s True (MonadState.get : EStateM Fault Wal Wal) w fun a w' => a = w ∧ w' = w :=
  Runs.of_ok (EStateM.run_get w) ⟨trivial, h, fun h => h, rfl, rfl⟩

/-- INTERNAL: a checked computation without state. -/
theorem liftExec {x : Exec α} {a : α} (h : Sound s w) (hok : P → x = .ok a)
    (hpanic : ¬P → x = .error .panic) :
    Guarded s P (liftExec x) w fun b w' => b = a ∧ w' = w := by
  by_cases hP : P
  · rw [hok hP]
    exact Runs.of_ok (run_liftExec_ok ..) ⟨hP, h, fun h => h, rfl, rfl⟩
  · rw [hpanic hP]
    exact Runs.of_error (run_liftExec_error ..) hP

/-- INTERNAL: a file operation that does not panic. -/
theorem onDir {y : EStateM Fault Dir α} {R : α → Dir → Prop} (h : Sound s w)
    (hy : Runs y w.dir (fun a d => (w.dir.faults = [] → d.faults = []) ∧ R a d)
      fun e _ => (∃ kind, e = .io kind) ∧ w.dir.faults ≠ []) :
    Guarded s True (Wal.onDir y) w fun a w' => R a w'.dir ∧ w'.activeSegment = w.activeSegment ∧
      w'.segmentMaxSize = w.segmentMaxSize := by
  cases hrun : y.run w.dir with
  | ok a d =>
    obtain ⟨hclear, hR⟩ := hy.ok hrun
    exact Runs.of_ok (run_onPart_ok Wal.dirPart hrun)
      ⟨trivial, ⟨h.segmentMaxSize, h.maxSize, h.fileSize_le⟩, hclear, hR, rfl, rfl⟩
  | error e d =>
    obtain ⟨⟨kind, rfl⟩, hfault⟩ := hy.error hrun
    exact Runs.of_error (run_onPart_error Wal.dirPart hrun)
      ⟨⟨h.segmentMaxSize, h.maxSize, h.fileSize_le⟩, hfault⟩

end Guarded

/-! ## The directory -/

/-- A created file is empty.
SOURCE: wal.rs:17, 67 -/
theorem createFile_runs (name : String) (d : Dir) : Runs (Dir.createFile name) d
    (fun _ d' => (d.faults = [] → d'.faults = []) ∧ d'.content name = [])
    fun e _ => (∃ kind, e = .io kind) ∧ d.faults ≠ [] := by
  obtain ⟨ev, d', hnext, hclear⟩ := Dir.nextEvent_run d
  unfold Dir.createFile
  cases ev with
  | ok =>
    refine Runs.of_ok (run_bind_ok hnext) ⟨fun h => (hclear h).2, ?_⟩
    exact Dir.content_put d' name []
  | fail written =>
    refine Runs.of_error (run_bind_ok hnext) ⟨⟨.other, rfl⟩, fun h => ?_⟩
    cases (hclear h).1

/-- SOURCE: wal/segment.rs:105 -/
theorem writeAll_runs (name : String) (buf : Bytes) (d : Dir) : Runs (Dir.writeAll name buf) d
    (fun _ d' => (d.faults = [] → d'.faults = []) ∧ True)
    fun e _ => (∃ kind, e = .io kind) ∧ d.faults ≠ [] := by
  unfold Dir.writeAll
  by_cases hbuf : buf = []
  · rw [if_neg (not_not.mpr hbuf)]
    exact Runs.of_ok (EStateM.run_pure ..) ⟨fun h => h, trivial⟩
  rw [if_pos hbuf]
  obtain ⟨ev, d', hnext, hclear⟩ := Dir.nextEvent_run d
  cases ev with
  | ok => exact Runs.of_ok (run_bind_ok hnext) ⟨fun h => (hclear h).2, trivial⟩
  | fail written =>
    refine Runs.of_error (run_bind_ok hnext) ⟨⟨.other, rfl⟩, fun h => ?_⟩
    cases (hclear h).1

/-! ## The log -/

section
variable {s : SegmentSize} {w : Wal} (h : Sound s w)
include h

/-- Bytes are written if they fit into the active segment.
SOURCE: wal/segment.rs:102-106 -/
theorem segmentAppend_guarded (buf : Bytes) :
    Guarded s (w.activeSegment.fileSize + buf.length % 2 ^ 32 ≤ s.val) (Wal.segmentAppend buf) w
      fun _ w' => w'.activeSegment =
        { w.activeSegment with fileSize := w.activeSegment.fileSize + buf.length % 2 ^ 32 } := by
  have hlt := s.lt
  set size := w.activeSegment.fileSize + buf.length % 2 ^ 32 with hsize
  have hcheck : Guarded s (size < 2 ^ 32)
      (liftExec (checkedAdd 32 w.activeSegment.fileSize (buf.length % 2 ^ 32)) :
        EStateM Fault Wal ℕ) w fun n w' => n = size ∧ w' = w :=
    Guarded.liftExec h (fun hP => if_pos hP) fun hP => if_neg hP
  have hassert : Guarded s (size ≤ w.activeSegment.maxSize)
      (liftExec (assert (size ≤ w.activeSegment.maxSize)) : EStateM Fault Wal Unit) w
      fun _ w' => () = () ∧ w' = w :=
    Guarded.liftExec h (fun hP => if_pos hP) fun hP => if_neg hP
  unfold Wal.segmentAppend
  refine Guarded.mono (P := True ∧ size < 2 ^ 32 ∧ size ≤ w.activeSegment.maxSize ∧ True ∧ True)
    ((Guarded.get h).bind ?_) ?_ (fun _ _ hQ => hQ)
  · rintro a w₀ - - ⟨rfl, rfl⟩
    refine hcheck.bind ?_
    rintro n w₁ - - ⟨rfl, rfl⟩
    refine hassert.bind ?_
    rintro ⟨⟩ w₂ hfits - ⟨-, rfl⟩
    refine (Guarded.onDir h (writeAll_runs w₂.activeSegment.filePath buf w₂.dir)).bind ?_
    rintro ⟨⟩ w₃ - hw₃ ⟨-, hactive, hmax⟩
    refine Runs.of_ok (EStateM.run_modify ..) ⟨trivial, ⟨hw₃.segmentMaxSize, hw₃.maxSize, ?_⟩,
      fun hclear => hclear, ?_⟩
    · exact h.maxSize ▸ hfits
    · rw [← hactive]
  · rw [h.maxSize]
    simp only [true_and, and_true]
    omega

/-- The active segment is filled up.
SOURCE: wal/segment.rs:108-113 -/
theorem segmentPad_guarded : Guarded s True Wal.segmentPad w fun _ _ => True := by
  have hlt := s.lt
  have hle := h.fileSize_le
  have hsub : checkedSub w.activeSegment.maxSize w.activeSegment.fileSize =
      .ok (s.val - w.activeSegment.fileSize) := by
    rw [h.maxSize]
    exact checkedSub_ok hle
  unfold Wal.segmentPad
  refine Guarded.mono ((Guarded.get h).bind ?_) (and_self_iff) (fun _ _ hQ => hQ)
  rintro a w₀ - - ⟨rfl, rfl⟩
  refine Guarded.mono ((Guarded.liftExec (P := True) h (fun _ => hsub) (by simp)).bind ?_)
    (and_self_iff) (fun _ _ hQ => hQ)
  rintro n w₁ - - ⟨rfl, rfl⟩
  refine (segmentAppend_guarded h _).mono ?_ (fun _ _ _ => trivial)
  rw [List.length_replicate, Nat.mod_eq_of_lt (by omega)]
  simp only [iff_true]
  omega

/-- The log goes on in an empty segment.
SOURCE: wal.rs:64-71 -/
theorem rotate_guarded {lsn : ℕ} (hlsn : lsn < 2 ^ 64) :
    Guarded s True (Wal.rotate lsn) w fun _ w' => w'.activeSegment.fileSize = 0 := by
  have hparse := s.parseBaseLsn_fileName hlsn
  unfold Wal.rotate
  refine Guarded.mono (P := True ∧ True ∧ True ∧ True ∧ True ∧ True) ((Guarded.get h).bind ?_)
    (by simp) (fun _ _ hQ => hQ)
  rintro a w₀ - - ⟨rfl, rfl⟩
  dsimp only
  rw [h.segmentMaxSize]
  refine (Guarded.liftExec (P := True) h (fun _ => s.assert_val) (by simp)).bind ?_
  rintro ⟨⟩ w₀ - h ⟨-, rfl⟩
  rw [show determineSegmentFilename 0 lsn s.val = s.fileName lsn from rfl]
  generalize s.fileName lsn = path at hparse ⊢
  refine (Guarded.onDir h (createFile_runs path w₀.dir)).bind ?_
  rintro ⟨⟩ w₁ - h₁ ⟨hempty, -, -⟩
  refine (Guarded.get h₁).bind ?_
  rintro a w₂ - - ⟨rfl, rfl⟩
  have hnew : Segment.new w₂.dir path s.val = .ok ⟨path, 0, s.val, s.baseOf lsn⟩ := by
    unfold Segment.new
    simp only [hempty, hparse, exec_ok_bind, exec_pure, List.length_nil, Nat.zero_mod]
  refine (Guarded.liftExec (P := True) h₁ (fun _ => hnew) (by simp)).bind ?_
  rintro segment w₃ - - ⟨rfl, rfl⟩
  exact Runs.of_ok (EStateM.run_modify ..)
    ⟨trivial, ⟨h₁.segmentMaxSize, rfl, Nat.zero_le _⟩, fun hclear => hclear, rfl⟩

/-- INTERNAL: bytes go to the next segment if its LSN is a number and it is large enough.
SOURCE: wal.rs:47-57 -/
theorem next_guarded (sequenceNumber size : ℕ) (buf : Bytes) :
    Guarded s (sequenceNumber + size < 2 ^ 64 ∧ buf.length % 2 ^ 32 ≤ s.val)
      (do
        Wal.segmentPad
        Wal.rotate (← liftExec (checkedAdd 64 sequenceNumber size))
        Wal.segmentAppend buf) w fun _ _ => True := by
  refine Guarded.mono (P := True ∧ sequenceNumber + size < 2 ^ 64 ∧ True ∧
    buf.length % 2 ^ 32 ≤ s.val) ((segmentPad_guarded h).bind ?_) (by simp only [true_and])
    (fun _ _ hQ => hQ)
  rintro ⟨⟩ w₁ - h₁ -
  refine (Guarded.liftExec h₁ (fun hlsn => if_pos hlsn) fun hlsn => if_neg hlsn).bind ?_
  rintro lsn w₂ hlsn - ⟨rfl, rfl⟩
  refine (rotate_guarded h₁ hlsn).bind ?_
  rintro ⟨⟩ w₃ - h₃ hempty
  refine (segmentAppend_guarded h₃ buf).mono ?_ (fun _ _ _ => trivial)
  rw [hempty, Nat.zero_add]

/-- An entry is appended if the log has room for it.
SOURCE: wal.rs:40-58 -/
theorem append_guarded {crc : Bytes → UInt32} {e : WalEntry} {length : ℕ}
    (hnext : e.sequenceNumber = w.activeSegment.baseLsn + w.activeSegment.fileSize)
    (hfits : e.valueFits = true) (hlength : (e.encode crc).length = length) :
    Guarded s (e.key ≠ "" ∧ HasRoom w.activeSegment length) (Wal.append crc e) w
      fun _ _ => True := by
  have hlt := s.lt
  have hle := h.fileSize_le
  have hmax := h.maxSize
  have hheader : HEADER_SIZE = 13 := rfl
  have hencode : Guarded s (e.key ≠ "") (liftExec (e.toBytes crc) : EStateM Fault Wal Bytes) w
      fun buf w' => buf = e.encode crc ∧ w' = w := by
    refine Guarded.liftExec h ?_ ?_
    · intro hkey
      unfold WalEntry.toBytes
      rw [assert_true hkey, assert_true hfits]
      rfl
    · intro hkey
      unfold WalEntry.toBytes assert
      rw [if_neg hkey]
      rfl
  have hremaining : w.activeSegment.remainingSpace =
      .ok (w.activeSegment.maxSize - w.activeSegment.fileSize) := checkedSub_ok (by omega)
  unfold Wal.append
  refine Guarded.mono (P := e.key ≠ "" ∧ True ∧ True ∧ HasRoom w.activeSegment length)
    (hencode.bind ?_) (by simp only [true_and]) (fun _ _ hQ => hQ)
  rintro buf w₀ - - ⟨rfl, rfl⟩
  refine (Guarded.get h).bind ?_
  rintro a w₁ - - ⟨rfl, rfl⟩
  refine (Guarded.liftExec (P := True) h (fun _ => hremaining) (by simp)).bind ?_
  rintro free w₂ - - ⟨rfl, rfl⟩
  rw [hlength, hnext]
  unfold HasRoom
  dsimp only
  by_cases hroom : length % 2 ^ 32 ≤ w₂.activeSegment.maxSize - w₂.activeSegment.fileSize
  · rw [if_pos hroom]
    refine (segmentAppend_guarded h _).mono ?_ (fun _ _ _ => trivial)
    rw [hlength]
    simp only [hroom, true_or, iff_true]
    omega
  · rw [if_neg hroom]
    by_cases hsplit : HEADER_SIZE ≤ w₂.activeSegment.maxSize - w₂.activeSegment.fileSize
    · rw [if_pos hsplit, if_pos hsplit]
      refine Guarded.mono (P := True ∧ _) (((segmentAppend_guarded h _).mono ?_
        (fun _ _ hQ => hQ)).bind fun _ w₃ _ h₃ _ => next_guarded h₃ ..) ?_ (fun _ _ hQ => hQ)
      · rw [List.length_take, hlength]
        simp only [iff_true]
        omega
      · simp only [hroom, false_or, true_and]
        rw [List.length_drop, hlength, hmax]
    · rw [if_neg hsplit, if_neg hsplit]
      refine (next_guarded h ..).mono ?_ (fun _ _ hQ => hQ)
      simp only [hroom, false_or]
      rw [hlength, hmax]

end

/-! ## The worker -/

section
variable {crc : Bytes → UInt32} {s : SegmentSize} {w : WriteWorker}

/-- INTERNAL: the length of the record of a write. -/
theorem encode_recordLength (op : OpType) (key : String) (value : Option String) (n : ℕ) :
    ((⟨op, key, value, n⟩ : WalEntry).encode crc).length = recordLength key value := by
  rw [encode_length, body_length]
  unfold recordLength
  cases value with
  | none => simp only [Option.elim_none]; omega
  | some v => simp only [Option.elim_some]; omega

/-- The counter of the bytes in the table must have room for the entry.
SOURCE: memtable.rs:366-373, 385-392 -/
theorem insertEntry_runs (e : WalEntry) : Runs (WriteWorker.insertEntry e) w
    (fun _ w' => w.currentSize + (SsTableEntry.fromValue e.key ⟨e.value, 0⟩).len < 2 ^ 64 ∧
      w'.wal = w.wal)
    fun f _ => f = .panic ∧
      ¬w.currentSize + (SsTableEntry.fromValue e.key ⟨e.value, 0⟩).len < 2 ^ 64 := by
  by_cases hsize : w.currentSize + (SsTableEntry.fromValue e.key ⟨e.value, 0⟩).len < 2 ^ 64
  · have hadd : checkedAdd 64 w.currentSize
        (SsTableEntry.fromValue e.key ⟨e.value, e.sequenceNumber⟩).len =
        .ok (w.currentSize + (SsTableEntry.fromValue e.key ⟨e.value, 0⟩).len) := if_pos hsize
    unfold WriteWorker.insertEntry Runs
    rw [run_bind_ok (EStateM.run_get w), run_bind_ok (EStateM.run_modify ..),
      run_bind_ok (EStateM.run_get _)]
    dsimp only
    rw [hadd, run_bind_ok (run_liftExec_ok ..), run_bind_ok (EStateM.run_modify ..)]
    exact ⟨hsize, rfl⟩
  · have hadd : checkedAdd 64 w.currentSize
        (SsTableEntry.fromValue e.key ⟨e.value, e.sequenceNumber⟩).len = .error .panic :=
      if_neg hsize
    unfold WriteWorker.insertEntry Runs
    rw [run_bind_ok (EStateM.run_get w), run_bind_ok (EStateM.run_modify ..),
      run_bind_ok (EStateM.run_get _)]
    dsimp only
    rw [hadd, run_bind_error (run_liftExec_error ..)]
    exact ⟨rfl, hsize⟩

/-- From a sound state the write returns only if there is room for it, and panics only if there
is not; an I/O error takes a fault. In any case but a panic the state is sound again. -/
def WritesIfRoom (s : SegmentSize) (key : String) (value : Option String)
    (write : EStateM Fault WriteWorker (Option MemTableValue)) : Prop :=
  ∀ w, Sound s w.wal → Runs write w (fun _ w' => Writable w key value ∧ Sound s w'.wal)
    fun e w' => match e with
      | .io _ => Sound s w'.wal ∧ w.wal.dir.faults ≠ []
      | .panic => ¬Writable w key value

/-- INTERNAL: `put` and `delete` are one write.
SOURCE: memtable.rs:357-393 -/
theorem write_ifRoom (op : OpType) (key : String) (value : Option String)
    (hfits : (⟨op, key, value, 0⟩ : WalEntry).valueFits = true) :
    WritesIfRoom s key value (do
        let sequenceNumber ← liftExec (← get).wal.nextSequenceNumber
        let entry : WalEntry := ⟨op, key, value, sequenceNumber⟩
        WriteWorker.onWal (Wal.append crc entry)
        WriteWorker.insertEntry entry) := by
  intro w h
  set lsn := w.wal.activeSegment.baseLsn + w.wal.activeSegment.fileSize with hlsn
  by_cases hnext : lsn < 2 ^ 64
  swap
  · have hpanic : w.wal.nextSequenceNumber = .error .panic := if_neg hnext
    refine Runs.of_error (show _ = EStateM.Result.error Fault.panic w from ?_)
      fun hw => hnext hw.2.1
    rw [run_bind_ok (EStateM.run_get w), hpanic, run_bind_error (run_liftExec_error ..)]
  have hok : w.wal.nextSequenceNumber = .ok lsn := if_pos hnext
  have happend : Guarded s (key ≠ "" ∧ HasRoom w.wal.activeSegment (recordLength key value))
      (Wal.append crc ⟨op, key, value, lsn⟩) w.wal fun _ _ => True :=
    append_guarded h hlsn hfits (encode_recordLength op key value lsn)
  unfold Runs
  rw [run_bind_ok (EStateM.run_get w), hok, run_bind_ok (run_liftExec_ok ..)]
  dsimp only
  cases hrun : (Wal.append crc ⟨op, key, value, lsn⟩).run w.wal with
  | error e wal =>
    have he := happend.error hrun
    rw [run_bind_error (run_onPart_error WriteWorker.walPart hrun)]
    cases e with
    | io kind => exact he
    | panic => exact fun hw => he ⟨hw.1, hw.2.2.1⟩
  | ok a wal =>
    obtain ⟨⟨hkey, hroom⟩, hwal, -, -⟩ := happend.ok hrun
    rw [run_bind_ok (run_onPart_ok WriteWorker.walPart hrun)]
    have hinsert := insertEntry_runs (w := { w with wal := wal }) ⟨op, key, value, lsn⟩
    unfold Runs at hinsert
    cases hrun' : (WriteWorker.insertEntry ⟨op, key, value, lsn⟩).run { w with wal := wal } with
    | ok old w' =>
      rw [hrun'] at hinsert
      exact ⟨⟨hkey, hnext, hroom, hinsert.1⟩, hinsert.2 ▸ hwal⟩
    | error e w' =>
      rw [hrun'] at hinsert
      obtain ⟨rfl, hover⟩ := hinsert
      exact fun hw => hover hw.2.2.2

theorem put_ifRoom (key value : String) :
    WritesIfRoom s key (some value) (WriteWorker.put crc key value) :=
  write_ifRoom .put key (some value) rfl

theorem delete_ifRoom (key : String) : WritesIfRoom s key none (WriteWorker.delete crc key) :=
  write_ifRoom .delete key none rfl

end

end Rkvs.Analysis

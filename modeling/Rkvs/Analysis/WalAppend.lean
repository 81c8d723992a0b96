import Rkvs.Analysis.SegmentDirectory
import Rkvs.Interface.LogImage

/-!
# What appending does to the files

`Wal::append` writes a record behind the contents of the active file, or it fills the file up
and goes on in a new one. Files that lie behind the active one are not read or written until a
new segment takes their name.
-/

set_option autoImplicit false

namespace Rkvs.Analysis

open Rkvs.Library Rkvs.Model Rkvs.Interface

/-- The log writes to the end of the file at `base` with these contents, between other files. -/
structure ActiveAt (s : SegmentSize) (w : Wal) (front : List (ℕ × Bytes)) (base : ℕ)
    (content : Bytes) (rear : List (ℕ × Bytes)) : Prop where
  files : SegmentFiles s w.dir (front ++ (base, content) :: rear)
  faults : w.dir.faults = []
  active : w.activeSegment = openedSegment s (base, content)
  maxSize : w.segmentMaxSize = s.val

/-- INTERNAL: a sorted list of files around an LSN. -/
theorem files_around {fs : List (ℕ × Bytes)} (h : fs.Pairwise fun f g => f.1 < g.1) (base : ℕ) :
    ∃ mid, (mid = [] ∨ ∃ old, mid = [(base, old)]) ∧
      fs = fs.filter (fun f => f.1 < base) ++ mid ++ fs.filter (fun f => base < f.1) := by
  induction fs with
  | nil => exact ⟨[], Or.inl rfl, rfl⟩
  | cons f fs ih =>
    obtain ⟨hhead, htail⟩ := List.pairwise_cons.mp h
    have hnone : ∀ b, b ≤ f.1 → fs.filter (fun g => g.1 < b) = [] := by
      intro b hb
      apply List.filter_eq_nil_iff.mpr
      intro g hg
      have hlt := hhead g hg
      simp only [decide_eq_true_eq]
      omega
    have hall : ∀ b, b ≤ f.1 → fs.filter (fun g => b < g.1) = fs := by
      intro b hb
      apply List.filter_eq_self.mpr
      intro g hg
      have hlt := hhead g hg
      simp only [decide_eq_true_eq]
      omega
    rcases Nat.lt_trichotomy f.1 base with hlt | heq | hgt
    · obtain ⟨mid, hmid, hsplit⟩ := ih htail
      refine ⟨mid, hmid, ?_⟩
      rw [List.filter_cons_of_pos (by simpa using hlt),
        List.filter_cons_of_neg (by simp; omega), List.cons_append, List.cons_append, ← hsplit]
    · refine ⟨[f], Or.inr ⟨f.2, by rw [← heq]⟩, ?_⟩
      rw [List.filter_cons_of_neg (by simp; omega), List.filter_cons_of_neg (by simp; omega),
        hnone base (by omega), hall base (by omega)]
      rfl
    · refine ⟨[], Or.inl rfl, ?_⟩
      rw [List.filter_cons_of_neg (by simp; omega), List.filter_cons_of_pos (by simpa using hgt),
        hnone base (by omega), hall base (by omega)]
      rfl

section
variable {s : SegmentSize} {dir : Dir} {fs : List (ℕ × Bytes)}

/-- A segment file is created, or emptied if it exists. -/
theorem SegmentFiles.create (h : SegmentFiles s dir fs) {lsn : ℕ} (hlsn : lsn < 2 ^ 64) :
    SegmentFiles s (dir.put (s.fileName lsn) [])
      (fs.filter (fun f => f.1 < s.baseOf lsn) ++ (s.baseOf lsn, []) ::
        fs.filter fun f => s.baseOf lsn < f.1) := by
  have hle := s.baseOf_le lsn
  obtain ⟨mid, hmid, hsplit⟩ := files_around h.sorted (s.baseOf lsn)
  rw [← s.fileName_baseOf hlsn]
  obtain rfl | ⟨old, rfl⟩ := hmid
  · refine h.put_new ?_ (s.dvd_baseOf lsn) (by omega) ?_ ?_ [] (by simp)
    · conv_lhs => rw [hsplit]
      simp
    · intro f hf
      exact of_decide_eq_true (List.mem_filter.mp hf).2
    · intro f hf
      exact of_decide_eq_true (List.mem_filter.mp hf).2
  · rw [List.append_assoc, List.singleton_append] at hsplit
    exact h.put hsplit [] (by simp)

/-- INTERNAL: an empty segment file is opened for writing.
SOURCE: wal/segment.rs:115-130 -/
theorem SegmentFiles.new_eq (h : SegmentFiles s dir fs) {lsn : ℕ} (hlsn : lsn < 2 ^ 64)
    (hmem : (s.baseOf lsn, []) ∈ fs) :
    Segment.new dir (s.fileName lsn) s.val = .ok (openedSegment s (s.baseOf lsn, [])) := by
  have hcontent := h.content hmem
  rw [s.fileName_baseOf hlsn] at hcontent
  unfold Segment.new
  simp only [hcontent, s.parseBaseLsn_fileName hlsn, exec_ok_bind]
  simp [openedSegment, s.fileName_baseOf hlsn]

/-- A new log writes to the first segment.
SOURCE: wal.rs:14-26 -/
theorem SegmentFiles.createNew_ok (h : SegmentFiles s dir fs) (hfaults : dir.faults = []) :
    ∃ w, Wal.createNew dir s.val = .ok w ∧
      ActiveAt s w [] 0 [] (fs.filter fun f => 0 < f.1) := by
  have hbase : s.baseOf 0 = 0 := s.baseOf_of_dvd (Nat.dvd_zero _)
  have hfiles := h.create (show 0 < 2 ^ 64 by norm_num)
  have hnone : fs.filter (fun f => f.1 < 0) = [] := by simp
  have hcreate := Dir.createFile_ok hfaults (s.fileName 0)
  rw [hbase, hnone, List.nil_append] at hfiles
  have hnew := hfiles.new_eq (show 0 < 2 ^ 64 by norm_num)
    (by rw [hbase]; exact List.mem_cons_self ..)
  rw [hbase] at hnew
  refine ⟨⟨openedSegment s (0, []), s.val, dir.put (s.fileName 0) []⟩, ?_, hfiles, hfaults, rfl,
    rfl⟩
  unfold Wal.createNew
  rw [s.assert_val, show determineSegmentFilename 0 0 s.val = s.fileName 0 from rfl]
  simp only [hcreate, hnew, exec_ok_bind, exec_pure]

end

/-- INTERNAL: what `append` looks at before it decides.
SOURCE: wal.rs:41-43 -/
theorem append_branches {w : Wal} {crc : Bytes → UInt32} {e : WalEntry} (he : WellFormed e)
    (hle : w.activeSegment.fileSize ≤ w.activeSegment.maxSize) :
    (Wal.append crc e).run w =
      if recordSpan e ≤ w.activeSegment.maxSize - w.activeSegment.fileSize then
        (Wal.segmentAppend (e.encode crc)).run w
      else if HEADER_SIZE ≤ w.activeSegment.maxSize - w.activeSegment.fileSize then
        (do
          Wal.segmentAppend ((e.encode crc).take HEADER_SIZE)
          Wal.segmentPad
          Wal.rotate (← liftExec (checkedAdd 64 e.sequenceNumber (recordSpan e)))
          Wal.segmentAppend ((e.encode crc).drop HEADER_SIZE)).run w
      else
        (do
          Wal.segmentPad
          Wal.rotate (← liftExec (checkedAdd 64 e.sequenceNumber (recordSpan e)))
          Wal.segmentAppend (e.encode crc)).run w := by
  have hspan : (e.encode crc).length % 2 ^ 32 = recordSpan e := by
    rw [encode_length]
    exact Nat.mod_eq_of_lt he.length_lt
  have hfree : w.activeSegment.remainingSpace =
      .ok (w.activeSegment.maxSize - w.activeSegment.fileSize) := checkedSub_ok hle
  unfold Wal.append
  rw [toBytes_ok he, run_bind_ok (run_liftExec_ok ..), run_bind_ok (EStateM.run_get w),
    hfree, run_bind_ok (run_liftExec_ok ..), hspan]
  split
  · rfl
  · split <;> rfl

section
variable {s : SegmentSize} {w : Wal} {front rear : List (ℕ × Bytes)} {base : ℕ} {content : Bytes}
  (h : ActiveAt s w front base content rear)
include h

namespace ActiveAt

/-- INTERNAL: the contents of the active file. -/
theorem content_eq : w.dir.content (s.fileName base) = content :=
  h.files.content (f := (base, content)) (by simp)

/-- INTERNAL: the active file is there. -/
theorem mem_names : s.fileName base ∈ w.dir.names := by
  have hperm := h.files.files.map Prod.fst
  rw [List.map_map] at hperm
  exact hperm.mem_iff.mpr (List.mem_map.mpr ⟨(base, content), by simp, rfl⟩)

theorem size_le : content.length ≤ s.val :=
  h.files.size_le (base, content) (by simp)

theorem base_lt : base < 2 ^ 64 := h.files.lt (base, content) (by simp)

/-- INTERNAL: the sequence number that is handed out next. -/
theorem next : w.nextSequenceNumber = checkedAdd 64 base content.length := by
  unfold Wal.nextSequenceNumber Segment.nextLsn
  rw [h.active, openedSegment_baseLsn, openedSegment_fileSize]

/-- INTERNAL: bytes that fit are written to the end of the active file.
SOURCE: wal/segment.rs:102-106 -/
theorem segmentAppend_ok (buf : Bytes) (hfit : content.length + buf.length ≤ s.val) :
    ∃ w', (Wal.segmentAppend buf).run w = .ok () w' ∧
      ActiveAt s w' front base (content ++ buf) rear := by
  have hlt := s.lt
  have hfiles := h.files.put rfl (content ++ buf) (by simpa using hfit)
  have hadd : checkedAdd 32 (openedSegment s (base, content)).fileSize (buf.length % 2 ^ 32) =
      .ok (content.length + buf.length) := by
    rw [Nat.mod_eq_of_lt (by omega)]
    exact checkedAdd_ok (show content.length + buf.length < 2 ^ 32 by omega)
  have hassert : assert (content.length + buf.length ≤ (openedSegment s (base, content)).maxSize) =
      .ok () := assert_true hfit
  have hwrite := Dir.writeAll_ok h.faults h.mem_names buf
  rw [h.content_eq] at hwrite
  refine ⟨{ w with
    activeSegment := openedSegment s (base, content ++ buf)
    dir := w.dir.put (s.fileName base) (content ++ buf) }, ?_, hfiles, h.faults, rfl, h.maxSize⟩
  unfold Wal.segmentAppend
  rw [run_bind_ok (EStateM.run_get w), h.active]
  dsimp only
  rw [hadd, run_bind_ok (run_liftExec_ok ..), hassert, run_bind_ok (run_liftExec_ok ..),
    openedSegment_filePath, run_bind_ok (run_onPart_ok Wal.dirPart hwrite), EStateM.run_modify, h.active]
  simp [openedSegment]

/-- INTERNAL: the rest of the active file is filled with zeros.
SOURCE: wal/segment.rs:108-113 -/
theorem segmentPad_ok : ∃ w', Wal.segmentPad.run w = .ok () w' ∧
    ActiveAt s w' front base (content ++ List.replicate (s.val - content.length) 0) rear := by
  have hsize := h.size_le
  obtain ⟨w', hrun, hactive⟩ :=
    h.segmentAppend_ok (List.replicate (s.val - content.length) 0) (by simp; omega)
  refine ⟨w', ?_, hactive⟩
  unfold Wal.segmentPad
  rw [run_bind_ok (EStateM.run_get w), h.active]
  simp only [openedSegment, checkedSub_ok hsize]
  rw [run_bind_ok (run_liftExec_ok ..)]
  exact hrun

/-- INTERNAL: the log goes on in the segment that holds `lsn`.
SOURCE: wal.rs:64-71 -/
theorem rotate_ok {lsn : ℕ} (hlsn : lsn < 2 ^ 64) (hpast : base < s.baseOf lsn) :
    ∃ w', (Wal.rotate lsn).run w = .ok () w' ∧
      ActiveAt s w' (front ++ (base, content) :: rear.filter fun f => f.1 < s.baseOf lsn)
        (s.baseOf lsn) [] (rear.filter fun f => s.baseOf lsn < f.1) := by
  have hle := s.baseOf_le lsn
  have hsorted := List.pairwise_append.mp h.files.sorted
  have hfiles := h.files.create hlsn
  have hfront : front.filter (fun f => f.1 < s.baseOf lsn) = front := by
    apply List.filter_eq_self.mpr
    intro f hf
    have hlt := hsorted.2.2 f hf _ (List.mem_cons_self ..)
    exact decide_eq_true (lt_trans hlt hpast)
  have hnone : front.filter (fun f => s.baseOf lsn < f.1) = [] := by
    apply List.filter_eq_nil_iff.mpr
    intro f hf
    have hlt := hsorted.2.2 f hf _ (List.mem_cons_self ..)
    dsimp only at hlt
    simp only [decide_eq_true_eq]
    omega
  have hkeep : ((base, content) :: rear).filter (fun f => f.1 < s.baseOf lsn) =
      (base, content) :: rear.filter fun f => f.1 < s.baseOf lsn :=
    List.filter_cons_of_pos (decide_eq_true hpast)
  have hdrop : ((base, content) :: rear).filter (fun f => s.baseOf lsn < f.1) =
      rear.filter fun f => s.baseOf lsn < f.1 :=
    List.filter_cons_of_neg (by simp only [decide_eq_true_eq]; omega)
  rw [List.filter_append, List.filter_append, hfront, hnone, hkeep, hdrop,
    List.nil_append] at hfiles
  have hcreate := Dir.createFile_ok h.faults (s.fileName lsn)
  have hnew := hfiles.new_eq hlsn (by simp)
  refine ⟨{ w with
    activeSegment := openedSegment s (s.baseOf lsn, [])
    dir := w.dir.put (s.fileName lsn) [] }, ?_, hfiles, h.faults, rfl, h.maxSize⟩
  unfold Wal.rotate
  rw [run_bind_ok (EStateM.run_get w)]
  dsimp only
  rw [h.maxSize, s.assert_val, run_bind_ok (run_liftExec_ok ..),
    show determineSegmentFilename 0 lsn s.val = s.fileName lsn from rfl,
    run_bind_ok (run_onPart_ok Wal.dirPart hcreate), run_bind_ok (EStateM.run_get _)]
  dsimp only
  rw [hnew, run_bind_ok (run_liftExec_ok ..), EStateM.run_modify, h.maxSize]

/-! ## The three ways of appending -/

/-- INTERNAL: the same for the contents of the active file. -/
theorem append_decides {crc : Bytes → UInt32} {e : WalEntry} (he : WellFormed e) :
    (Wal.append crc e).run w =
      if recordSpan e ≤ s.val - content.length then
        (Wal.segmentAppend (e.encode crc)).run w
      else if HEADER_SIZE ≤ s.val - content.length then
        (do
          Wal.segmentAppend ((e.encode crc).take HEADER_SIZE)
          Wal.segmentPad
          Wal.rotate (← liftExec (checkedAdd 64 e.sequenceNumber (recordSpan e)))
          Wal.segmentAppend ((e.encode crc).drop HEADER_SIZE)).run w
      else
        (do
          Wal.segmentPad
          Wal.rotate (← liftExec (checkedAdd 64 e.sequenceNumber (recordSpan e)))
          Wal.segmentAppend (e.encode crc)).run w := by
  have hle : w.activeSegment.fileSize ≤ w.activeSegment.maxSize := by
    rw [h.active]
    exact h.size_le
  rw [append_branches he hle, h.active]
  rfl

/-- A record that fits is written behind the others.
SOURCE: wal.rs:44-45 -/
theorem append_fits (crc : Bytes → UInt32) {e : WalEntry} (he : WellFormed e)
    (hfit : content.length + recordSpan e ≤ s.val) :
    ∃ w', (Wal.append crc e).run w = .ok () w' ∧
      ActiveAt s w' front base (content ++ e.encode crc) rear := by
  have hlen : (e.encode crc).length = recordSpan e := encode_length crc e
  rw [h.append_decides he, if_pos (by omega)]
  exact h.segmentAppend_ok _ (by omega)

end ActiveAt

end

/-- The way in which a record crosses over when `free` bytes are left. -/
def crossingAt (e : WalEntry) (free : ℕ) : Crossing :=
  if HEADER_SIZE ≤ free then ⟨e, true, free - HEADER_SIZE⟩ else ⟨e, false, free⟩

section
variable {s : SegmentSize} {w : Wal} {front rear : List (ℕ × Bytes)} {base : ℕ} {content : Bytes}
  (h : ActiveAt s w front base content rear)
include h

namespace ActiveAt

/-- A record that does not fit crosses over to the segment that holds its end.
SOURCE: wal.rs:46-55 -/
theorem append_crosses (crc : Bytes → UInt32) {e : WalEntry} (he : WellFormed e)
    (hspan : recordSpan e - (crossingAt e (s.val - content.length)).cut ≤ s.val)
    (hfull : s.val < content.length + recordSpan e)
    (hlsn : e.sequenceNumber + recordSpan e < 2 ^ 64)
    (hpast : base < s.baseOf (e.sequenceNumber + recordSpan e)) :
    ∃ w', (Wal.append crc e).run w = .ok () w' ∧
      ActiveAt s w'
        (front ++ (base, content ++
          (crossingAt e (s.val - content.length)).before (WalEntry.encode crc)) ::
          rear.filter fun f => f.1 < s.baseOf (e.sequenceNumber + recordSpan e))
        (s.baseOf (e.sequenceNumber + recordSpan e))
        ((crossingAt e (s.val - content.length)).after (WalEntry.encode crc))
        (rear.filter fun f => s.baseOf (e.sequenceNumber + recordSpan e) < f.1) := by
  have hlen : (e.encode crc).length = recordSpan e := encode_length crc e
  have hsize := h.size_le
  have hadd := checkedAdd_ok hlsn
  rw [h.append_decides he, if_neg (by omega)]
  unfold crossingAt at hspan ⊢
  by_cases hroom : HEADER_SIZE ≤ s.val - content.length
  · have hheader : ((e.encode crc).take HEADER_SIZE).length = HEADER_SIZE := by
      rw [List.length_take]
      omega
    rw [if_pos hroom] at hspan
    simp only [Crossing.cut, if_true] at hspan
    rw [if_pos hroom, if_pos hroom, hadd]
    obtain ⟨w₁, hrun₁, h₁⟩ :=
      h.segmentAppend_ok ((e.encode crc).take HEADER_SIZE) (by omega)
    obtain ⟨w₂, hrun₂, h₂⟩ := h₁.segmentPad_ok
    obtain ⟨w₃, hrun₃, h₃⟩ := h₂.rotate_ok hlsn hpast
    obtain ⟨w₄, hrun₄, h₄⟩ := h₃.segmentAppend_ok ((e.encode crc).drop HEADER_SIZE)
      (by rw [List.length_drop, List.length_nil]; omega)
    refine ⟨w₄, ?_, ?_⟩
    · rw [run_bind_ok hrun₁, run_bind_ok hrun₂, run_bind_ok (run_liftExec_ok ..),
        run_bind_ok hrun₃, hrun₄]
    · rw [List.length_append, hheader, List.append_assoc] at h₄
      unfold Crossing.before Crossing.after Crossing.cut
      simp only [if_true]
      rw [Nat.sub_sub]
      exact h₄
  · rw [if_neg hroom] at hspan
    simp only [Crossing.cut, Bool.false_eq_true, if_false, Nat.sub_zero] at hspan
    rw [if_neg hroom, if_neg hroom, hadd]
    obtain ⟨w₁, hrun₁, h₁⟩ := h.segmentPad_ok
    obtain ⟨w₂, hrun₂, h₂⟩ := h₁.rotate_ok hlsn hpast
    obtain ⟨w₃, hrun₃, h₃⟩ := h₂.segmentAppend_ok (e.encode crc)
      (by rw [List.length_nil]; omega)
    refine ⟨w₃, ?_, ?_⟩
    · rw [run_bind_ok hrun₁, run_bind_ok (run_liftExec_ok ..), run_bind_ok hrun₂, hrun₃]
    · exact h₃

/-- INTERNAL: bytes that do not fit are not written.
SOURCE: wal/segment.rs:102-106 -/
theorem segmentAppend_panics (buf : Bytes) (hlong : s.val < content.length + buf.length)
    (hbuf : buf.length < 2 ^ 32) :
    ∃ w', (Wal.segmentAppend buf).run w = .error .panic w' := by
  unfold Wal.segmentAppend
  rw [run_bind_ok (EStateM.run_get w), h.active]
  dsimp only
  rw [openedSegment_fileSize, openedSegment_maxSize, Nat.mod_eq_of_lt hbuf]
  by_cases hadd : content.length + buf.length < 2 ^ 32
  · have hassert : assert (content.length + buf.length ≤ s.val) = .error .panic :=
      if_neg (Nat.not_le.mpr hlong)
    dsimp only
    rw [checkedAdd_ok hadd, run_bind_ok (run_liftExec_ok ..), hassert]
    exact ⟨w, run_bind_error (run_liftExec_error ..)⟩
  · have hover : checkedAdd 32 content.length buf.length = .error .panic := if_neg hadd
    dsimp only
    rw [hover]
    exact ⟨w, run_bind_error (run_liftExec_error ..)⟩

/-- INTERNAL: a record of which more than a segment goes to the next one is not written.
SOURCE: wal.rs:46-55 -/
theorem append_too_long (crc : Bytes → UInt32) {e : WalEntry} (he : WellFormed e)
    (hspan : s.val < recordSpan e - (crossingAt e (s.val - content.length)).cut)
    (hfull : s.val < content.length + recordSpan e)
    (hlsn : e.sequenceNumber + recordSpan e < 2 ^ 64)
    (hpast : base < s.baseOf (e.sequenceNumber + recordSpan e)) :
    ∃ w', (Wal.append crc e).run w = .error .panic w' := by
  have hlen : (e.encode crc).length = recordSpan e := encode_length crc e
  have hshort : recordSpan e < 2 ^ 32 := he.length_lt
  have hsize := h.size_le
  have hadd := checkedAdd_ok hlsn
  rw [h.append_decides he, if_neg (by omega)]
  unfold crossingAt at hspan
  by_cases hroom : HEADER_SIZE ≤ s.val - content.length
  · rw [if_pos hroom] at hspan
    simp only [Crossing.cut, if_true] at hspan
    rw [if_pos hroom, hadd]
    obtain ⟨w₁, hrun₁, h₁⟩ :=
      h.segmentAppend_ok ((e.encode crc).take HEADER_SIZE) (by rw [List.length_take]; omega)
    obtain ⟨w₂, hrun₂, h₂⟩ := h₁.segmentPad_ok
    obtain ⟨w₃, hrun₃, h₃⟩ := h₂.rotate_ok hlsn hpast
    obtain ⟨w₄, hrun₄⟩ := h₃.segmentAppend_panics ((e.encode crc).drop HEADER_SIZE)
      (by rw [List.length_drop, List.length_nil]; omega) (by rw [List.length_drop]; omega)
    exact ⟨w₄, by rw [run_bind_ok hrun₁, run_bind_ok hrun₂, run_bind_ok (run_liftExec_ok ..),
      run_bind_ok hrun₃, hrun₄]⟩
  · rw [if_neg hroom] at hspan
    simp only [Crossing.cut, Bool.false_eq_true, if_false, Nat.sub_zero] at hspan
    rw [if_neg hroom, hadd]
    obtain ⟨w₁, hrun₁, h₁⟩ := h.segmentPad_ok
    obtain ⟨w₂, hrun₂, h₂⟩ := h₁.rotate_ok hlsn hpast
    obtain ⟨w₃, hrun₃⟩ := h₂.segmentAppend_panics (e.encode crc)
      (by rw [List.length_nil]; omega) (by omega)
    exact ⟨w₃, by rw [run_bind_ok hrun₁, run_bind_ok (run_liftExec_ok ..), run_bind_ok hrun₂,
      hrun₃]⟩

/-- INTERNAL: a log whose LSNs are used up does not rotate.
SOURCE: wal.rs:49, 53 -/
theorem append_overflow (crc : Bytes → UInt32) {e : WalEntry} (he : WellFormed e)
    (hfull : s.val < content.length + recordSpan e)
    (hlsn : ¬e.sequenceNumber + recordSpan e < 2 ^ 64) :
    ∃ w', (Wal.append crc e).run w = .error .panic w' := by
  have hlen : (e.encode crc).length = recordSpan e := encode_length crc e
  have hsize := h.size_le
  have hadd : checkedAdd 64 e.sequenceNumber (recordSpan e) = .error .panic := if_neg hlsn
  rw [h.append_decides he, if_neg (by omega), hadd]
  by_cases hroom : HEADER_SIZE ≤ s.val - content.length
  · rw [if_pos hroom]
    obtain ⟨w₁, hrun₁, h₁⟩ :=
      h.segmentAppend_ok ((e.encode crc).take HEADER_SIZE)
        (by rw [List.length_take]; omega)
    obtain ⟨w₂, hrun₂, h₂⟩ := h₁.segmentPad_ok
    exact ⟨w₂, by rw [run_bind_ok hrun₁, run_bind_ok hrun₂,
      run_bind_error (run_liftExec_error ..)]⟩
  · rw [if_neg hroom]
    obtain ⟨w₁, hrun₁, h₁⟩ := h.segmentPad_ok
    exact ⟨w₁, by rw [run_bind_ok hrun₁, run_bind_error (run_liftExec_error ..)]⟩

/-- A record that was appended either stands behind the others, or it has crossed over to the
segment that holds its end. -/
theorem append_inv (crc : Bytes → UInt32) {e : WalEntry} (he : WellFormed e)
    (hseq : e.sequenceNumber = base + content.length) {w' : Wal}
    (hrun : (Wal.append crc e).run w = .ok () w') :
    (content.length + recordSpan e ≤ s.val ∧
      ActiveAt s w' front base (content ++ e.encode crc) rear) ∨
    (s.val < content.length + recordSpan e ∧
      base < s.baseOf (e.sequenceNumber + recordSpan e) ∧
      ActiveAt s w'
        (front ++ (base, content ++
          (crossingAt e (s.val - content.length)).before (WalEntry.encode crc)) ::
          rear.filter fun f => f.1 < s.baseOf (e.sequenceNumber + recordSpan e))
        (s.baseOf (e.sequenceNumber + recordSpan e))
        ((crossingAt e (s.val - content.length)).after (WalEntry.encode crc))
        (rear.filter fun f => s.baseOf (e.sequenceNumber + recordSpan e) < f.1)) := by
  by_cases hfit : content.length + recordSpan e ≤ s.val
  · obtain ⟨w₁, hrun₁, h₁⟩ := h.append_fits crc he hfit
    rw [hrun] at hrun₁
    cases hrun₁
    exact Or.inl ⟨hfit, h₁⟩
  rw [Nat.not_le] at hfit
  have hlsn : e.sequenceNumber + recordSpan e < 2 ^ 64 := by
    by_contra hover
    obtain ⟨w₁, hrun₁⟩ := h.append_overflow crc he hfit hover
    rw [hrun] at hrun₁
    cases hrun₁
  have hpast : base < s.baseOf (e.sequenceNumber + recordSpan e) := by
    have hpos := s.pos
    have hdvd := h.files.dvd (base, content) (by simp)
    have hlt := s.lt_baseOf_add (e.sequenceNumber + recordSpan e)
    have hnext := Nat.le_of_lt_add_of_dvd
      (show base + s.val < s.baseOf (e.sequenceNumber + recordSpan e) + s.val by omega)
      (Nat.dvd_add hdvd (Nat.dvd_refl _)) (s.dvd_baseOf _)
    omega
  by_cases hspan : recordSpan e - (crossingAt e (s.val - content.length)).cut ≤ s.val
  · obtain ⟨w₁, hrun₁, h₁⟩ := h.append_crosses crc he hspan hfit hlsn hpast
    rw [hrun] at hrun₁
    cases hrun₁
    exact Or.inr ⟨hfit, hpast, h₁⟩
  · obtain ⟨w₁, hrun₁⟩ := h.append_too_long crc he (Nat.not_le.mp hspan) hfit hlsn hpast
    rw [hrun] at hrun₁
    cases hrun₁

end ActiveAt

end

end Rkvs.Analysis

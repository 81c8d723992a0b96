import Rkvs.Analysis.BufferFill
import Rkvs.Analysis.LevelMerge
import Rkvs.Interface.BufferRuns
import Rkvs.Library.FirstFound

/-!
# When an empty read buffer has read its segment

A buffer that is empty after it was filled has come to the end of its segment or to an entry that
does not fit into it.
-/

set_option autoImplicit false

namespace Rkvs.Analysis

open Rkvs.Library Rkvs.Model Rkvs.Interface

/-- INTERNAL: a buffer that has given up the first entries of its segment. -/
structure Halfway (seg : Sst.Segment) (maxSize : ℕ)
    (s : List SsTableEntry × Sst.SegmentReadBuf) : Prop where
  reading : Reading maxSize s.2
  segment : s.2.segment = seg
  all : s.1 ++ pending s.2 = entriesOf seg

section
variable {seg : Sst.Segment} {maxSize : ℕ}

/-- INTERNAL: nothing is read at first. -/
theorem halfway_start (hwhole : Whole seg) (hshort : seg.dataBlockEnd + 1 < 2 ^ 64) :
    Halfway seg maxSize ([], .new seg maxSize) := by
  obtain ⟨hreading, hpending⟩ := reading_new hwhole hshort maxSize
  exact ⟨hreading, rfl, hpending⟩

/-- INTERNAL: no entry is lost or given up twice, by the kinds of steps.
SOURCE: level/segment.rs:606-653 -/
theorem halfway_step (hmax : maxSize < 2 ^ 64) {s s' : List SsTableEntry × Sst.SegmentReadBuf}
    {op : BufferOp} (h : Halfway seg maxSize s) (hstep : BufferStep s op s') :
    Halfway seg maxSize s' := by
  cases hstep with
  | @fill popped b b' hfill =>
    obtain ⟨b₁, hrun, hreading, hsegment, hpending, -⟩ := fill_ok h.reading hmax
    cases hrun.symm.trans hfill
    exact ⟨hreading, hsegment.trans h.segment, (congrArg (popped ++ ·) hpending).trans h.all⟩
  | @popFront popped b b' opt hpop =>
    cases hbuf : b.buf with
    | nil =>
      cases (popFront_nil hbuf).symm.trans hpop
      exact ⟨h.reading, h.segment, by rw [Option.toList_none, List.append_nil]; exact h.all⟩
    | cons e rest =>
      obtain ⟨b₁, hrun, hreading, hsegment, -, hpending⟩ := popFront_ok h.reading hbuf
      cases hrun.symm.trans hpop
      refine ⟨hreading, hsegment.trans h.segment, ?_⟩
      rw [← h.all, hpending, List.append_assoc]
      rfl

/-- INTERNAL: entries that fit are all given up in some run, by induction on them. -/
theorem exists_run (hmax : maxSize < 2 ^ 64) {more rest : List SsTableEntry}
    (hfits : ∀ e ∈ more, e.len + 4 ≤ maxSize)
    {steps : List ((List SsTableEntry × Sst.SegmentReadBuf) × BufferOp)}
    {start s : List SsTableEntry × Sst.SegmentReadBuf} (hrun : Run BufferStep start steps s)
    (h : Halfway seg maxSize s) (hpending : pending s.2 = more ++ rest) :
    ∃ steps' b, Run BufferStep start steps' (s.1 ++ more, b) ∧
      Halfway seg maxSize (s.1 ++ more, b) ∧ pending b = rest := by
  induction more generalizing steps s with
  | nil =>
    refine ⟨steps, s.2, ?_, ?_, hpending⟩
    · rw [List.append_nil]
      exact hrun
    · rw [List.append_nil]
      exact h
  | cons e more ih =>
    obtain ⟨hefits, hmore⟩ := List.forall_mem_cons.mp hfits
    -- the entry is in the buffer, or gets there when the buffer is filled
    have hfront : ∃ steps' b others, Run BufferStep start steps' (s.1, b) ∧
        Halfway seg maxSize (s.1, b) ∧ pending b = e :: more ++ rest ∧ b.buf = e :: others := by
      cases hbuf : s.2.buf with
      | cons f others =>
        refine ⟨steps, s.2, others, hrun, h, hpending, ?_⟩
        rw [pending, hbuf] at hpending
        rw [hbuf, List.head_eq_of_cons_eq hpending]
      | nil =>
        obtain ⟨b', hfill, hreading, hsegment, hsame, hbuf'⟩ := fill_ok h.reading hmax
        have hunread : unread s.2 = e :: (more ++ rest) := by
          rw [pending, hbuf, List.nil_append] at hpending
          exact hpending
        have hsize : s.2.size = 0 := by
          have haccounted := h.reading.accounted
          rw [Accounted, hbuf] at haccounted
          exact haccounted
        rw [hbuf, hunread, hsize, readable_cons_of_le (by simpa using hefits),
          List.nil_append] at hbuf'
        have hstep : BufferStep s .fill (s.1, b') := .fill hfill
        exact ⟨_, b', _, hrun.snoc hstep, halfway_step hmax h hstep, hsame.trans hpending, hbuf'⟩
    obtain ⟨steps₁, b, others, hrun₁, hhalf, hall, hbuf⟩ := hfront
    obtain ⟨b', hpop, -, -, -, hrest⟩ := popFront_ok hhalf.reading hbuf
    have hstep : BufferStep (s.1, b) .popFront (s.1 ++ [e], b') := .popFront hpop
    have hleft : pending b' = more ++ rest := List.tail_eq_of_cons_eq (hrest.symm.trans hall)
    obtain ⟨steps₂, b₂, hrun₂, hhalf₂, hrest₂⟩ := ih hmore (hrun₁.snoc hstep)
      (halfway_step hmax hhalf hstep) hleft
    rw [List.append_assoc] at hrun₂ hhalf₂
    exact ⟨steps₂, b₂, hrun₂, hhalf₂, hrest₂⟩

/-- A read buffer that is empty after it was filled has read its segment, in every run, if and only
if every entry of the segment fits into it.
SOURCE: level/segment.rs:180-205, 603-654; level.rs:479-555 -/
theorem empty_is_exhausted_iff (hwhole : Whole seg) (hshort : seg.dataBlockEnd < 2 ^ 63)
    {segmentCount readBufLen : ℕ}
    (hlen : checkedAdd 64 (Sst.MERGE_BUF_MAX_TOTAL_SIZE / segmentCount) 1 = .ok readBufLen) :
    EmptyIsExhausted seg readBufLen ↔ ∀ e ∈ entriesOf seg, e.len + 4 ≤ readBufLen := by
  have hmax : readBufLen < 2 ^ 64 := (checkedAdd_eq_ok hlen).1 ▸ (checkedAdd_eq_ok hlen).2
  have hstart : Halfway seg readBufLen ([], .new seg readBufLen) :=
    halfway_start hwhole (by omega)
  constructor
  · intro hall
    by_contra hlarge
    -- the first entry that is too large is what the buffer stops at
    obtain ⟨more, e, rest, hsplit, hmore, he⟩ := exists_first_not hlarge
    obtain ⟨steps, b, hrun, hhalf, hpending⟩ :=
      exists_run hmax hmore Run.nil hstart (hstart.all.trans hsplit)
    obtain ⟨b', hfill, -, -, -, hbuf⟩ := fill_ok hhalf.reading hmax
    have hempty : b.buf = [] := by
      cases hb : b.buf with
      | nil => rfl
      | cons f others =>
        rw [pending, hb] at hpending
        have hle := len_le_of_mem_buf hhalf.reading (hb ▸ List.mem_cons_self ..)
        rw [List.head_eq_of_cons_eq hpending] at hle
        exact absurd hle he
    rw [pending, hempty, List.nil_append] at hpending
    rw [hempty, hpending, readable_cons_of_lt (by omega)] at hbuf
    have hdone := hall steps _ b b' hrun hfill (by rw [Sst.SegmentReadBuf.isEmpty, hbuf]; rfl)
    rw [List.nil_append, hsplit] at hdone
    exact absurd hdone.symm (by simp)
  · intro hfits steps popped b b' hrun hfill hempty
    obtain ⟨-, hhalf⟩ := Run.invariant hstart (fun s op s' => halfway_step hmax) hrun
    obtain ⟨b₁, hrun₁, -, -, -, hbuf⟩ := fill_ok hhalf.reading hmax
    cases hrun₁.symm.trans hfill
    have hnone := List.isEmpty_iff.mp hempty
    rw [hbuf] at hnone
    have hdone := pending_eq_nil hhalf.reading (fun e he => ?_) hnone
    · rw [← hhalf.all, hdone, List.append_nil]
    · apply hfits
      rw [← hhalf.segment]
      exact mem_entriesOf_of_pending hhalf.reading he

/-- INTERNAL: a buffer stays empty in front of a first entry that is larger. -/
theorem not_exhausted {e : SsTableEntry} {rest : List SsTableEntry} {readBufLen : ℕ}
    (hstored : Stored seg (e :: rest)) (hshort : seg.dataBlockEnd + 1 < 2 ^ 64)
    (hmax : readBufLen < 2 ^ 64) (hlarge : readBufLen < e.len + 4) :
    ¬EmptyIsExhausted seg readBufLen := by
  intro hexhausted
  obtain ⟨hreading, -⟩ := reading_new (whole_of_stored hstored) hshort readBufLen
  obtain ⟨b', hfill, -, -, -, hbuf⟩ := fill_ok hreading hmax
  have hunread : unread (.new seg readBufLen) = e :: rest :=
    @unread_eq (.new seg readBufLen) [] (e :: rest) hstored rfl
  have hempty : b'.buf = [] := by
    rw [hbuf, hunread]
    exact readable_cons_of_lt hlarge rest
  have hpopped := hexhausted [] [] _ b' Run.nil hfill
    (by rw [Sst.SegmentReadBuf.isEmpty, hempty]; rfl)
  rw [entriesOf_eq hstored] at hpopped
  cases hpopped

end

/-! ## An entry that is larger than the buffer -/

/-- INTERNAL: a value of `n` bytes. -/
def longValue (n : ℕ) : String := String.ofList (List.replicate n 'x')

/-- INTERNAL: the length of the value. -/
theorem longValue_length (n : ℕ) : (asBytes (longValue n)).length = n := by
  have hencode : (List.replicate n 'x').utf8Encode.size = n := by
    induction n with
    | zero => rfl
    | succ n ih =>
      rw [List.replicate_succ, List.utf8Encode_cons, ByteArray.size_append, ih, Nat.add_comm]
      rfl
  unfold asBytes longValue
  rw [Array.length_toList]
  show (String.ofList (List.replicate n 'x')).toByteArray.size = n
  rw [String.toByteArray_ofList, hencode]

/-- INTERNAL: a segment with one entry, whose value has `n` bytes. -/
def longSegment (n : ℕ) : Sst.Segment :=
  segmentHolding "0000000000000001.sst" 0 1 [⟨"k", some (longValue n), 1⟩]

/-- INTERNAL: the length of its entry. -/
theorem long_len (n : ℕ) : SsTableEntry.len ⟨"k", some (longValue n), 1⟩ = 18 + n := by
  have hkey : (asBytes "k").length = 1 := by decide
  have hvalue := longValue_length n
  unfold SsTableEntry.len
  dsimp only
  omega

/-- INTERNAL: the segment holds the entry. -/
theorem long_stored {n : ℕ} (hn : n < 2 ^ 31) :
    Stored (longSegment n) [⟨"k", some (longValue n), 1⟩] := by
  apply segmentHolding_stored (List.cons_ne_nil _ _) (List.pairwise_singleton ..)
  intro e he
  have hlen := long_len n
  rw [List.mem_singleton.mp he]
  exact ⟨by omega, Nat.one_lt_two_pow (by decide)⟩

/-- INTERNAL: where its data block ends. -/
theorem long_dataBlockEnd {n : ℕ} (hn : n < 2 ^ 31) : (longSegment n).dataBlockEnd = 22 + n := by
  have hlen := long_len n
  rw [(long_stored hn).dataEnd, dataBlock_length, framedBytes_cons, hlen]
  show 18 + n + 4 + 0 = 22 + n
  omega

/-- A segment with one entry of a thousand bytes, and a buffer of the size that the code gives it.
-/
theorem empty_is_exhausted_long :
    EmptyIsExhausted (longSegment 1000) 10485761 ↔
      ∀ e ∈ entriesOf (longSegment 1000), e.len + 4 ≤ 10485761 := by
  have hend := @long_dataBlockEnd 1000 (by decide)
  exact @empty_is_exhausted_iff (longSegment 1000) (whole_of_stored (long_stored (by decide)))
    (by omega) 1 10485761 rfl

/-- A value of 10 MiB does not fit into the buffer even of a single segment.
SOURCE: level/segment.rs:180-205; level.rs:483, 540-545 -/
theorem large_entry_lost : ¬∀ (seg : Sst.Segment) (segmentCount readBufLen : ℕ), Whole seg →
    seg.dataBlockEnd < 2 ^ 63 →
    checkedAdd 64 (Sst.MERGE_BUF_MAX_TOTAL_SIZE / segmentCount) 1 = .ok readBufLen →
    EmptyIsExhausted seg readBufLen := by
  intro hall
  have hstored := @long_stored 10485760 (by decide)
  have hend := @long_dataBlockEnd 10485760 (by decide)
  have hlen := long_len 10485760
  generalize longSegment 10485760 = seg at hstored hend
  apply not_exhausted hstored (by omega) (show 10485761 < 2 ^ 64 by decide) (by omega)
  exact hall seg 1 10485761 (whole_of_stored hstored) (by omega) rfl

end Rkvs.Analysis

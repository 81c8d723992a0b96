import Rkvs.Analysis.BufferFill
import Rkvs.Analysis.LevelMerge
import Rkvs.Interface.BufferRuns

/-!
# The numbers of a read buffer

Filling a read buffer and taking entries from it, in any order, never panics, and its offset and
its size are always those of whole entries.
-/

set_option autoImplicit false

namespace Rkvs.Analysis

open Rkvs.Library Rkvs.Model Rkvs.Interface

section
variable {es : List SsTableEntry} {seg : Sst.Segment} {maxSize : ℕ}
  {s s' : List SsTableEntry × Sst.SegmentReadBuf}

/-- INTERNAL: a buffer of the segment, with its numbers. -/
structure Buffering (es : List SsTableEntry) (seg : Sst.Segment) (maxSize : ℕ)
    (s : List SsTableEntry × Sst.SegmentReadBuf) : Prop where
  bookkept : Bookkept es maxSize s
  segment : s.2.segment = seg
  maxSize : s.2.maxSize = maxSize

theorem buffering_new (es : List SsTableEntry) (seg : Sst.Segment) (maxSize : ℕ) :
    Buffering es seg maxSize ([], .new seg maxSize) :=
  ⟨⟨List.nil_prefix, rfl, rfl, Nat.zero_le _⟩, rfl, rfl⟩

/-- A buffer takes over the next entries of the file, and no bytes behind the last one.
SOURCE: level/segment.rs:180-205, 619-628 -/
theorem fill_keeps (hfile : FileOf es seg) (hmax : maxSize < 2 ^ 64)
    {popped : List SsTableEntry} {b : Sst.SegmentReadBuf}
    (h : Buffering es seg maxSize (popped, b)) :
    ∃ b', b.fill = .ok b' ∧ Buffering es seg maxSize (popped, b') := by
  obtain ⟨⟨⟨rest, hsplit⟩, hoffset, hsize, hle⟩, hseg, hmaxSize⟩ := h
  dsimp only at hsplit hoffset hsize hle hseg hmaxSize
  obtain ⟨more, hmore, hdata⟩ := hfile.data
  have hshort : seg.dataBlockEnd + 1 < 2 ^ 64 := by
    have hlen := hfile.short
    have hpos := List.length_pos_iff.mpr hmore
    rw [hdata, List.length_append, ← hfile.dataEnd] at hlen
    omega
  obtain ⟨left, hleft⟩ := readable_prefix (maxSize - b.size) rest
  have hroom := framedBytes_readable (maxSize - b.size) rest
  have hread : b.segment.readAtMost b.currOffset (maxSize - b.size) =
      .ok (readable (maxSize - b.size) rest) := by
    rw [hseg, hoffset, ← dataBlock_length]
    apply readAtMost_ok
    · exact fun e he => hfile.fits e (hsplit ▸ List.mem_append_right _ he)
    · rw [hsplit]
      exact hdata
    · rw [hsplit]
      exact hfile.dataEnd
    · exact hshort
  generalize readable (maxSize - b.size) rest = taken at hleft hroom hread
  have hbound : b.currOffset + framedBytes taken ≤ seg.dataBlockEnd := by
    rw [hfile.dataEnd, dataBlock_length, ← hsplit, hleft, hoffset,
      framedBytes_append (popped ++ b.buf) (taken ++ left), framedBytes_append taken]
    omega
  refine ⟨{ b with
      size := b.size + framedBytes taken
      currOffset := b.currOffset + framedBytes taken
      buf := b.buf ++ taken }, ?_, ⟨⟨⟨left, ?_⟩, ?_, ?_, ?_⟩, hseg, hmaxSize⟩⟩
  · have hfree : checkedSub b.maxSize b.size = .ok (maxSize - b.size) := by
      rw [hmaxSize, checkedSub_ok hle]
    unfold Sst.SegmentReadBuf.fill
    rw [hfree, exec_ok_bind, hread, exec_ok_bind]
    exact @pushEntries_ok b taken (by omega) (by omega)
  · show popped ++ (b.buf ++ taken) ++ left = es
    rw [← hsplit, hleft]
    simp only [List.append_assoc]
  · show b.currOffset + framedBytes taken = framedBytes (popped ++ (b.buf ++ taken))
    rw [hoffset, ← List.append_assoc, framedBytes_append (popped ++ b.buf)]
  · show b.size + framedBytes taken = framedBytes (b.buf ++ taken)
    rw [hsize, framedBytes_append]
  · show b.size + framedBytes taken ≤ maxSize
    omega

/-- A buffer gives up its first entry, if there is one.
SOURCE: level/segment.rs:641-649 -/
theorem popFront_keeps {popped : List SsTableEntry} {b : Sst.SegmentReadBuf}
    (h : Buffering es seg maxSize (popped, b)) :
    ∃ opt b', b.popFront = .ok (opt, b') ∧
      Buffering es seg maxSize (popped ++ opt.toList, b') := by
  obtain ⟨⟨hinOrder, hoffset, hsize, hle⟩, hseg, hmaxSize⟩ := h
  dsimp only at hinOrder hoffset hsize hle hseg hmaxSize
  unfold Sst.SegmentReadBuf.popFront
  cases hbuf : b.buf with
  | nil =>
    rw [hbuf] at hinOrder hoffset hsize
    refine ⟨none, b, rfl, ⟨⟨?_, ?_, ?_, hle⟩, hseg, hmaxSize⟩⟩
    · rwa [Option.toList_none, List.append_nil, hbuf]
    · rwa [Option.toList_none, List.append_nil, hbuf]
    · rwa [hbuf]
  | cons e rest =>
    rw [hbuf] at hinOrder hoffset hsize
    rw [framedBytes_cons] at hsize
    have hsplit : popped ++ (some e).toList ++ rest = popped ++ e :: rest := by simp
    refine ⟨some e, { b with buf := rest, size := b.size - (e.len + 4) }, ?_,
      ⟨⟨?_, ?_, ?_, ?_⟩, hseg, hmaxSize⟩⟩
    · dsimp only
      rw [checkedSub_ok (by omega)]
      rfl
    · rw [hsplit]
      exact hinOrder
    · rw [hsplit]
      exact hoffset
    · show b.size - (e.len + 4) = framedBytes rest
      omega
    · show b.size - (e.len + 4) ≤ maxSize
      omega

/-- INTERNAL: what a step keeps, by the kinds of steps. -/
theorem buffering_step (hfile : FileOf es seg) (hmax : maxSize < 2 ^ 64) {op : BufferOp}
    (h : Buffering es seg maxSize s) (hstep : BufferStep s op s') :
    Buffering es seg maxSize s' := by
  cases hstep with
  | fill hfill =>
    obtain ⟨b₁, hrun, hnext⟩ := fill_keeps hfile hmax h
    cases hrun.symm.trans hfill
    exact hnext
  | popFront hpop =>
    obtain ⟨opt₁, b₁, hrun, hnext⟩ := popFront_keeps h
    cases hrun.symm.trans hpop
    exact hnext

/-- In every run a read buffer holds the entries of the file that follow those it has given up,
with exact numbers, and can be filled and emptied further.
SOURCE: level/segment.rs:180-205, 603-654; sstable.rs:236-254 -/
theorem bookkeeping_exact (hfile : FileOf es seg) (hmax : maxSize < 2 ^ 64)
    {steps : List ((List SsTableEntry × Sst.SegmentReadBuf) × BufferOp)}
    (hrun : Run BufferStep ([], .new seg maxSize) steps s) :
    (∀ p ∈ steps, Bookkept es maxSize p.1) ∧ Bookkept es maxSize s ∧
      (∃ b, s.2.fill = .ok b) ∧ ∃ opt b, s.2.popFront = .ok (opt, b) := by
  obtain ⟨hbefore, hlast⟩ := hrun.invariant (buffering_new es seg maxSize)
    (fun s op s' => buffering_step hfile hmax)
  obtain ⟨b, hfill, -⟩ := fill_keeps hfile hmax hlast
  obtain ⟨opt, b', hpop, -⟩ := popFront_keeps hlast
  exact ⟨fun p hp => (hbefore p hp).bookkept, hlast.bookkept, ⟨b, hfill⟩, opt, b', hpop⟩

end

/-- Three entries, of 23, 24 and 23 bytes in the file. -/
def threeEntries : List SsTableEntry :=
  [⟨"a", some "v", 1⟩, ⟨"bb", some "w", 2⟩, ⟨"c", some "x", 3⟩]

/-- INTERNAL: a segment with these entries. -/
theorem threeEntries_fileOf : FileOf threeEntries (segmentHolding "" 0 1 threeEntries) := by
  have hstored : Stored (segmentHolding "" 0 1 threeEntries) threeEntries := by
    refine segmentHolding_stored (List.cons_ne_nil _ _) ?_ ?_
    · show List.Pairwise (fun e f : SsTableEntry => e.key < f.key) threeEntries
      decide
    · unfold threeEntries
      simp only [List.forall_mem_cons]
      exact ⟨⟨by decide, by decide⟩, ⟨by decide, by decide⟩,
        ⟨by decide, by decide⟩, by simp⟩
  exact ⟨hstored.fits, hstored.data, hstored.dataEnd, by decide⟩

/-- A buffer of 50 bytes has room for two of them. It is filled again when it has given up the first
one. -/
theorem bookkeeping_three : ∃ b₀ b₁ b₂,
    Run BufferStep ([], .new (segmentHolding "" 0 1 threeEntries) 50)
        [(([], .new (segmentHolding "" 0 1 threeEntries) 50), .fill), (([], b₀), .popFront),
          (([⟨"a", some "v", 1⟩], b₁), .fill)] ([⟨"a", some "v", 1⟩], b₂) ∧
      b₀.buf = threeEntries.take 2 ∧ b₂.buf = threeEntries.drop 1 ∧
      Bookkept threeEntries 50 ([⟨"a", some "v", 1⟩], b₂) := by
  have hplayed : (do
      let b₀ ← (Sst.SegmentReadBuf.new (segmentHolding "" 0 1 threeEntries) 50).fill
      let popped ← b₀.popFront
      let b₂ ← popped.2.fill
      return (b₀.buf, popped.1, b₂.buf)) =
      .ok (threeEntries.take 2, some ⟨"a", some "v", 1⟩, threeEntries.drop 1) := by
    decide
  obtain ⟨b₀, hfill, hrest⟩ := exec_bind_eq_ok.mp hplayed
  obtain ⟨⟨opt, b₁⟩, hpop, hrest⟩ := exec_bind_eq_ok.mp hrest
  obtain ⟨b₂, hagain, hseen⟩ := exec_bind_eq_ok.mp hrest
  obtain ⟨hfirst, hseen⟩ := Prod.mk.inj (Except.ok.inj hseen)
  obtain ⟨rfl, hsecond⟩ := Prod.mk.inj hseen
  have hfirstFill : BufferStep ([], .new _ _) .fill ([], b₀) := .fill hfill
  have hrun := ((Run.nil.snoc hfirstFill).snoc (.popFront hpop)).snoc (.fill hagain)
  exact ⟨b₀, b₁, b₂, hrun, hfirst, hsecond,
    (bookkeeping_exact threeEntries_fileOf (by decide) hrun).2.1⟩

end Rkvs.Analysis

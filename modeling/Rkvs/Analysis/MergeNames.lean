import Rkvs.Analysis.LevelMerge
import Rkvs.Analysis.RecoveryFiles
import Rkvs.Analysis.SstWriter
import Rkvs.Model.SstMerge

/-!
# The files that a merge writes

A merge into a level writes files of that level only, whose numbers are above all numbers in the
level. The segments that it returns have these names.
-/

set_option autoImplicit false

namespace Rkvs.Analysis

open Rkvs.Library Rkvs.Model Rkvs.Interface

/-! ## Writes to some files -/

/-- INTERNAL: only files with certain names were written, and none was removed. -/
structure WroteAmong (P : String → Prop) (d d' : Dir) : Prop where
  kept : ∀ name ∈ d.names, name ∈ d'.names
  added : ∀ name ∈ d'.names, name ∈ d.names ∨ P name
  content : ∀ name, ¬P name → d'.content name = d.content name

section
variable {P Q : String → Prop} {d d' d'' : Dir} {path : String}

/-- INTERNAL: nothing was written. -/
theorem WroteAmong.refl : WroteAmong P d d := ⟨fun _ h => h, fun _ h => Or.inl h, fun _ _ => rfl⟩

/-- INTERNAL: one write after the other. -/
theorem WroteAmong.trans (h : WroteAmong P d d') (h' : WroteAmong P d' d'') :
    WroteAmong P d d'' where
  kept name hname := h'.kept name (h.kept name hname)
  added name hname := by
    obtain hname | hP := h'.added name hname
    · exact h.added name hname
    · exact Or.inr hP
  content name hP := (h'.content name hP).trans (h.content name hP)

/-- INTERNAL: a write to one of these files. -/
theorem WroteTo.among (h : WroteTo path d d') (hP : P path) : WroteAmong P d d' where
  kept name hname := by
    by_cases hpath : name = path
    · rw [hpath]
      exact h.mem
    · exact (h.names name hpath).mpr hname
  added name hname := by
    by_cases hpath : name = path
    · rw [hpath]
      exact Or.inr hP
    · exact Or.inl ((h.names name hpath).mp hname)
  content name hnot := by
    apply h.content
    rintro rfl
    exact hnot hP

/-- INTERNAL: opening a file to write. -/
theorem openWrite_wroteTo (h : (Dir.openWrite path).run d = .ok () d') : WroteTo path d d' := by
  obtain ⟨ev, mid, hnext, hrest⟩ := run_bind_eq_ok h
  obtain ⟨ev', d₁, hnext', hfaults⟩ := Dir.nextEvent_run d
  rw [hnext] at hnext'
  cases hnext'
  have hfiles := Dir.nextEvent_files hnext
  cases ev with
  | ok =>
    cases hrest
    change WroteTo path d (if path ∈ mid.names then mid else mid.put path [])
    by_cases hmem : path ∈ mid.names
    · rw [if_pos hmem]
      have hsame : mid.names = d.names := by
        unfold Dir.names
        rw [hfiles]
      refine ⟨hmem, fun name _ => by rw [hsame], fun name _ => ?_, fun hd => (hfaults hd).2⟩
      unfold Dir.content
      rw [hfiles]
    · rw [if_neg hmem]
      exact wroteTo_put (fun hd => (hfaults hd).2) hfiles
  | fail written => cases hrest

/-- INTERNAL: writing at a place of a file. -/
theorem writeAt_wroteTo {pos : ℕ} {buf : Bytes}
    (h : (Dir.writeAt path pos buf).run d = .ok () d') : WroteTo path d d' := by
  obtain ⟨ev, mid, hnext, hrest⟩ := run_bind_eq_ok h
  obtain ⟨ev', d₁, hnext', hfaults⟩ := Dir.nextEvent_run d
  rw [hnext] at hnext'
  cases hnext'
  have hfiles := Dir.nextEvent_files hnext
  cases ev with
  | ok =>
    by_cases hlong : 2 ^ 63 ≤ pos + buf.length
    · dsimp only at hrest
      rw [if_pos hlong] at hrest
      cases hrest
    · dsimp only at hrest
      rw [if_neg hlong] at hrest
      cases hrest
      exact wroteTo_put (fun hd => (hfaults hd).2) hfiles
  | fail written => cases hrest

end

/-! ## The writer of a merge -/

section
variable {d d' : Dir} {w w' : Sst.SegmentWriter}

/-- INTERNAL: a new segment has the name of its level and its number.
SOURCE: level/segment.rs:378-401 -/
theorem createSegment_eq_ok {targetSize levelNumber number sparsity : ℕ}
    (h : (Sst.createSegment targetSize levelNumber number sparsity).run d = .ok w d') :
    Sst.Segment.determineSegmentFilename levelNumber number = .ok w.filepath ∧
      WroteTo w.filepath d d' := by
  obtain ⟨w₀, mid, hcreate, hreturn⟩ := run_bind_eq_ok h
  cases hreturn
  obtain ⟨path, mid₁, hname, hopened⟩ := run_bind_eq_ok hcreate
  obtain ⟨hnamed, rfl⟩ := run_liftExec_eq_ok hname
  obtain ⟨⟨⟩, mid₂, hopen, hrest⟩ := run_bind_eq_ok hopened
  cases hrest
  exact ⟨hnamed, openWrite_wroteTo hopen⟩

/-- SOURCE: level/segment.rs:434-449 -/
theorem writeEntry_wroteTo {entry : SsTableEntry} (h : (w.writeEntry entry).run d = .ok w' d') :
    w'.filepath = w.filepath ∧ WroteTo w.filepath d d' := by
  obtain ⟨⟨⟩, mid, hassert, h₁⟩ := run_bind_eq_ok h
  obtain ⟨-, rfl⟩ := run_liftExec_eq_ok hassert
  obtain ⟨⟨⟩, mid₁, hlen, h₂⟩ := run_bind_eq_ok h₁
  obtain ⟨⟨⟩, mid₂, hbytes, h₃⟩ := run_bind_eq_ok h₂
  obtain ⟨entriesWritten, mid₃, hwritten, h₄⟩ := run_bind_eq_ok h₃
  obtain ⟨-, rfl⟩ := run_liftExec_eq_ok hwritten
  obtain ⟨index, mid₄, hindex, h₅⟩ := run_bind_eq_ok h₄
  obtain ⟨-, rfl⟩ := run_liftExec_eq_ok hindex
  obtain ⟨currSize, mid₅, hsize, h₆⟩ := run_bind_eq_ok h₅
  obtain ⟨-, rfl⟩ := run_liftExec_eq_ok hsize
  cases h₆
  exact ⟨rfl, (writeAt_wroteTo hlen).trans (writeAt_wroteTo hbytes)⟩

/-- SOURCE: level.rs:522-525 -/
theorem finishSegment_eq_ok {s : Sst.Segment}
    (h : (Sst.finishSegment w).run d = .ok (w', s) d') :
    WroteTo w.filepath d d' ∧ Sst.Segment.fromFile d' w.filepath = .ok (.ok s) := by
  obtain ⟨w₁, mid, hfooter, hopening⟩ := run_bind_eq_ok h
  obtain ⟨⟨⟩, mid₁, hassert, h₁⟩ := run_bind_eq_ok hfooter
  obtain ⟨-, rfl⟩ := run_liftExec_eq_ok hassert
  obtain ⟨⟨⟩, mid₂, hindex, h₂⟩ := run_bind_eq_ok h₁
  obtain ⟨⟨⟩, mid₃, hend, h₃⟩ := run_bind_eq_ok h₂
  cases h₃
  have hwrote := (writeAt_wroteTo hindex).trans (writeAt_wroteTo hend)
  obtain ⟨dir, mid₄, hget, h₄⟩ := run_bind_eq_ok hopening
  cases hget
  obtain ⟨res, mid₅, hopen, h₅⟩ := run_bind_eq_ok h₄
  obtain ⟨hopened, rfl⟩ := run_liftExec_eq_ok hopen
  cases res with
  | ok segment =>
    cases h₅
    exact ⟨hwrote, hopened⟩
  | error e => cases h₅

end

/-! ## The segments of a merge -/

/-- INTERNAL: the name of a segment of a level with a number above `lo`. -/
def NamedAbove (levelNumber lo : ℕ) (name : String) : Prop :=
  ∃ n, lo < n ∧ Sst.Segment.determineSegmentFilename levelNumber n = .ok name

/-- INTERNAL: opened files of a level, in the order of their numbers, which are above `lo`. -/
structure NewSegments (levelNumber lo : ℕ) (d : Dir) (segments : List Sst.Segment) : Prop where
  opened : ∀ s ∈ segments, Sst.Segment.fromFile d s.filepath = .ok (.ok s)
  level : ∀ s ∈ segments, s.levelNumber = levelNumber
  named : ∀ s ∈ segments,
    Sst.Segment.determineSegmentFilename levelNumber s.number = .ok s.filepath
  above : ∀ s ∈ segments, lo < s.number
  ascending : segments.Pairwise fun s t => s.number < t.number

/-- INTERNAL: besides, the file that is written next has the last number so far. -/
structure WritesNext (levelNumber lo : ℕ) (d : Dir) (out : Sst.Output) : Prop where
  segments : NewSegments levelNumber lo d out.res
  current : ∃ n, out.newSegmentNumber = n + 1 ∧ lo < n ∧ (∀ s ∈ out.res, s.number < n) ∧
    Sst.Segment.determineSegmentFilename levelNumber n = .ok out.segmentWriter.filepath

section
variable {levelNumber lo : ℕ} {d d' : Dir} {out out' : Sst.Output} {segments : List Sst.Segment}

/-- INTERNAL: no segment was written. -/
theorem NewSegments.nil : NewSegments levelNumber lo d [] :=
  ⟨fun _ h => absurd h List.not_mem_nil, fun _ h => absurd h List.not_mem_nil,
    fun _ h => absurd h List.not_mem_nil, fun _ h => absurd h List.not_mem_nil,
    List.Pairwise.nil⟩

/-- INTERNAL: a file with another number is written. -/
theorem NewSegments.of_wroteTo (h : NewSegments levelNumber lo d segments) {n : ℕ} {path : String}
    (hpath : Sst.Segment.determineSegmentFilename levelNumber n = .ok path)
    (hlt : ∀ s ∈ segments, s.number < n) (hwrote : WroteTo path d d') :
    NewSegments levelNumber lo d' segments := by
  refine ⟨fun s hs => ?_, h.level, h.named, h.above, h.ascending⟩
  have hne : s.filepath ≠ path := by
    intro hsame
    have hnumbers := numbers_of_filename hpath
    rw [← hsame, numbers_of_filename (h.named s hs)] at hnumbers
    cases hnumbers
    exact lt_irrefl _ (hlt s hs)
  rw [← h.opened s hs]
  exact (fromFile_congr (hwrote.names _ hne).symm (hwrote.content _ hne).symm).symm

/-- INTERNAL: the writer writes to a new file. -/
theorem WritesNext.writes (h : WritesNext levelNumber lo d out) :
    NamedAbove levelNumber lo out.segmentWriter.filepath := by
  obtain ⟨n, -, hlo, -, hname⟩ := h.current
  exact ⟨n, hlo, hname⟩

/-- INTERNAL: it still does when it has written to its file. -/
theorem WritesNext.of_wroteTo (h : WritesNext levelNumber lo d out) {w : Sst.SegmentWriter}
    (hpath : w.filepath = out.segmentWriter.filepath)
    (hwrote : WroteTo out.segmentWriter.filepath d d') :
    WritesNext levelNumber lo d' { out with segmentWriter := w } := by
  obtain ⟨n, hnumber, hlo, hlt, hname⟩ := h.current
  refine ⟨h.segments.of_wroteTo hname hlt hwrote, n, hnumber, hlo, hlt, ?_⟩
  rw [hname, hpath]

/-- INTERNAL: the file at hand is finished. -/
theorem WritesNext.finish (h : WritesNext levelNumber lo d out) {w : Sst.SegmentWriter}
    {s : Sst.Segment} (hrun : (Sst.finishSegment out.segmentWriter).run d = .ok (w, s) d') :
    NewSegments levelNumber lo d' (out.res ++ [s]) ∧ s.number + 1 = out.newSegmentNumber := by
  obtain ⟨n, hnumber, hlo, hlt, hname⟩ := h.current
  obtain ⟨hwrote, hopen⟩ := finishSegment_eq_ok hrun
  obtain ⟨hmem, hpath, -, -, hnumbers⟩ := fromFile_eq_ok hopen
  rw [numbers_of_filename hname] at hnumbers
  have hlevel : levelNumber = s.levelNumber := congrArg Prod.fst (Except.ok.inj hnumbers)
  have hn : n = s.number := congrArg Prod.snd (Except.ok.inj hnumbers)
  have hold := h.segments.of_wroteTo hname hlt hwrote
  rw [← hpath] at hopen hname
  have hboth : ∀ {P : Sst.Segment → Prop}, (∀ t ∈ out.res, P t) → P s →
      ∀ t ∈ out.res ++ [s], P t := by
    intro P hP hs t ht
    obtain ht | ht := List.mem_append.mp ht
    · exact hP t ht
    · rwa [List.mem_singleton.mp ht]
  refine ⟨⟨hboth hold.opened hopen, hboth hold.level hlevel.symm, hboth hold.named ?_,
    hboth hold.above ?_, ?_⟩, ?_⟩
  · rwa [← hn]
  · rwa [← hn]
  · refine List.pairwise_append.mpr ⟨hold.ascending, List.pairwise_singleton .., ?_⟩
    intro t ht t' ht'
    rw [List.mem_singleton.mp ht', ← hn]
    exact hlt t ht
  · rw [hnumber, hn]

/-- INTERNAL: a segment more is begun. -/
theorem WritesNext.next (h : NewSegments levelNumber lo d segments) {n targetSize sparsity : ℕ}
    (hlo : lo < n) (hlt : ∀ s ∈ segments, s.number < n) {w : Sst.SegmentWriter}
    (hrun : (Sst.createSegment targetSize levelNumber n sparsity).run d = .ok w d') :
    WritesNext levelNumber lo d' ⟨w, n + 1, segments⟩ := by
  obtain ⟨hname, hwrote⟩ := createSegment_eq_ok hrun
  exact ⟨h.of_wroteTo hname hlt hwrote, n, rfl, hlo, hlt, hname⟩

/-- INTERNAL: entries are written, by induction on them.
SOURCE: level.rs:520-535 -/
theorem writeBuf_names {targetSize : ℕ} {level : Sst.PartitionedLevel}
    {entries : List SsTableEntry} (h : WritesNext level.levelNumber lo d out)
    (hrun : (Sst.writeBuf targetSize level entries out).run d = .ok out' d') :
    WroteAmong (NamedAbove level.levelNumber lo) d d' ∧
      WritesNext level.levelNumber lo d' out' := by
  induction entries generalizing d out with
  | nil =>
    cases hrun
    exact ⟨.refl, h⟩
  | cons entry entries ih =>
    rw [Sst.writeBuf] at hrun
    obtain ⟨reached, mid, hreached, h₁⟩ := run_bind_eq_ok hrun
    obtain ⟨-, rfl⟩ := run_liftExec_eq_ok hreached
    have hcurrent := h.writes
    cases reached with
    | false =>
      obtain ⟨w, mid₁, hwrite, h₂⟩ := run_bind_eq_ok h₁
      obtain ⟨hpath, hwrote⟩ := writeEntry_wroteTo hwrite
      obtain ⟨hrest, hout⟩ := ih (h.of_wroteTo hpath hwrote) h₂
      exact ⟨(hwrote.among hcurrent).trans hrest, hout⟩
    | true =>
      obtain ⟨⟨w, s⟩, mid₁, hfinish, h₂⟩ := run_bind_eq_ok h₁
      obtain ⟨w₁, mid₂, hcreate, h₃⟩ := run_bind_eq_ok h₂
      obtain ⟨n, mid₃, hadd, h₄⟩ := run_bind_eq_ok h₃
      obtain ⟨hsum, rfl⟩ := run_liftExec_eq_ok hadd
      obtain ⟨w₂, mid₄, hwrite, h₅⟩ := run_bind_eq_ok h₄
      obtain ⟨hsegments, hnumber⟩ := h.finish hfinish
      have hn : n = out.newSegmentNumber + 1 := (checkedAdd_eq_ok hsum).1.symm
      have hlast : ∀ t ∈ out.res ++ [s], t.number < out.newSegmentNumber := by
        obtain ⟨k, hk, -, hlt, -⟩ := h.current
        intro t ht
        obtain ht | ht := List.mem_append.mp ht
        · rw [hk]
          exact (hlt t ht).trans (Nat.lt_succ_self k)
        · rw [List.mem_singleton.mp ht, ← hnumber]
          exact Nat.lt_succ_self _
      have hlo : lo < out.newSegmentNumber :=
        (hsegments.above s (List.mem_append_right _ (List.mem_singleton_self s))).trans
          (hlast s (List.mem_append_right _ (List.mem_singleton_self s)))
      have hnext := WritesNext.next hsegments hlo hlast hcreate
      rw [← hn] at hnext
      obtain ⟨hpath, hwrote⟩ := writeEntry_wroteTo hwrite
      obtain ⟨hrest, hout⟩ := ih (hnext.of_wroteTo hpath hwrote) h₅
      have hfinished := (finishSegment_eq_ok hfinish).1.among hcurrent
      have hcreated := (createSegment_eq_ok hcreate).2.among hnext.writes
      exact ⟨((hfinished.trans hcreated).trans (hwrote.among hnext.writes)).trans hrest, hout⟩

/-- INTERNAL: the rounds of a merge, by induction on them.
SOURCE: level.rs:512-546 -/
theorem mergeRounds_names {orders : ℕ → Sst.IterationOrder} {targetSize limit fuel : ℕ}
    {level : Sst.PartitionedLevel} {readBufs : List Sst.SegmentReadBuf}
    (h : WritesNext level.levelNumber lo d out)
    (hrun : (Sst.mergeRounds orders targetSize level limit fuel readBufs out).run d =
      .ok out' d') :
    WroteAmong (NamedAbove level.levelNumber lo) d d' ∧
      WritesNext level.levelNumber lo d' out' := by
  induction fuel generalizing d out readBufs with
  | zero => cases hrun
  | succ fuel ih =>
    rw [Sst.mergeRounds] at hrun
    by_cases hempty : readBufs.isEmpty = true
    · rw [if_pos hempty] at hrun
      cases hrun
      exact ⟨.refl, h⟩
    · rw [if_neg hempty] at hrun
      cases hsort : (Sst.mergeSort (orders fuel) limit (Sst.readBufRefs readBufs)).run readBufs with
      | error e bufs =>
        rw [hsort] at hrun
        cases hrun
      | ok entries bufs =>
        rw [hsort] at hrun
        obtain ⟨out₁, mid, hwrite, h₁⟩ := run_bind_eq_ok hrun
        obtain ⟨bufs', mid₁, hfill, h₂⟩ := run_bind_eq_ok h₁
        obtain ⟨-, rfl⟩ := run_liftExec_eq_ok hfill
        obtain ⟨hwrote, hnext⟩ := writeBuf_names h hwrite
        obtain ⟨hrest, hout⟩ := ih hnext h₂
        exact ⟨hwrote.trans hrest, hout⟩

/-- A merge writes segments of its level only, with numbers above those in the level.
SOURCE: level.rs:479-555 -/
theorem mergeAndWriteTo_names {orders : ℕ → Sst.IterationOrder} {targetSize fuel : ℕ}
    {level : Sst.PartitionedLevel} {incoming newSegments : List Sst.Segment}
    (hrun : (Sst.mergeAndWriteTo orders targetSize fuel level incoming).run d =
      .ok newSegments d') :
    WroteAmong (NamedAbove level.levelNumber level.highestSegmentNumber) d d' ∧
      NewSegments level.levelNumber level.highestSegmentNumber d' newSegments := by
  unfold Sst.mergeAndWriteTo at hrun
  by_cases hempty : incoming.isEmpty = true
  · rw [if_pos hempty] at hrun
    cases hrun
    exact ⟨.refl, .nil⟩
  · rw [if_neg hempty] at hrun
    obtain ⟨readBufLen, mid, hlen, h₁⟩ := run_bind_eq_ok hrun
    obtain ⟨-, rfl⟩ := run_liftExec_eq_ok hlen
    obtain ⟨n, mid₁, hfirst, h₂⟩ := run_bind_eq_ok h₁
    obtain ⟨hn, rfl⟩ := run_liftExec_eq_ok hfirst
    obtain ⟨w, mid₂, hcreate, h₃⟩ := run_bind_eq_ok h₂
    obtain ⟨n', mid₃, hsecond, h₄⟩ := run_bind_eq_ok h₃
    obtain ⟨hn', rfl⟩ := run_liftExec_eq_ok hsecond
    obtain ⟨readBufs, mid₄, hfill, h₅⟩ := run_bind_eq_ok h₄
    obtain ⟨-, rfl⟩ := run_liftExec_eq_ok hfill
    obtain ⟨out, mid₅, hrounds, h₆⟩ := run_bind_eq_ok h₅
    have hlo : level.highestSegmentNumber < n := by
      rw [← (checkedAdd_eq_ok hn).1]
      exact Nat.lt_succ_self _
    have hstart := WritesNext.next (.nil) hlo (fun s hs => absurd hs List.not_mem_nil) hcreate
    rw [(checkedAdd_eq_ok hn').1] at hstart
    obtain ⟨hwrote, hout⟩ := mergeRounds_names hstart hrounds
    have hcreated := (createSegment_eq_ok hcreate).2.among hstart.writes
    by_cases hfinished : out.segmentWriter.finished = false
    · rw [if_pos hfinished] at h₆
      obtain ⟨⟨w', s⟩, mid₆, hfinish, h₇⟩ := run_bind_eq_ok h₆
      cases h₇
      exact ⟨(hcreated.trans hwrote).trans ((finishSegment_eq_ok hfinish).1.among hout.writes),
        (hout.finish hfinish).1⟩
    · rw [if_neg hfinished] at h₆
      cases h₆
      exact ⟨hcreated.trans hwrote, hout.segments⟩

end

/-! ## The merge into a level -/

/-- INTERNAL: the level after a merge, with what was written for it, and the segments to delete. -/
structure LevelMerged (level : Sst.PartitionedLevel) (incoming : List Sst.Segment) (d : Dir)
    (level' : Sst.PartitionedLevel) (deleted written : List Sst.Segment) (d' : Dir) : Prop where
  deleted : deleted = touchedBy level incoming ++ incoming
  wrote : WroteAmong (NamedAbove level.levelNumber level.highestSegmentNumber) d d'
  numbered : NewSegments level.levelNumber level.highestSegmentNumber d' written
  segments : level'.segments.Perm (written ++ untouchedBy level incoming)
  targetSize : level'.targetSize = level.targetSize
  levelNumber : level'.levelNumber = level.levelNumber

/-- A merge replaces the segments that overlap by new ones.
SOURCE: level.rs:441-477 -/
theorem mergeLevels_eq_ok
    {orders : Sst.PartitionedLevel → List Sst.Segment → ℕ → Sst.IterationOrder} {fuel : ℕ}
    {level level' : Sst.PartitionedLevel} {incoming deleted : List Sst.Segment} {d d' : Dir}
    (h : (Sst.mergeLevels orders fuel level incoming).run d = .ok (level', deleted) d') :
    ∃ written, LevelMerged level incoming d level' deleted written d' := by
  obtain ⟨written, mid, hwrite, hreturn⟩ := run_bind_eq_ok h
  obtain ⟨hwrote, hnew⟩ := mergeAndWriteTo_names hwrite
  cases hreturn
  exact ⟨written, rfl, hwrote, hnew, List.mergeSort_perm .., rfl, rfl⟩

/-! ## The last segment of a merge -/

section
variable {d d' : Dir}

/-- INTERNAL: an entry is written to a segment that is not finished, which it stays.
SOURCE: level/segment.rs:434-449 -/
theorem writeEntry_unfinished {w w' : Sst.SegmentWriter} {entry : SsTableEntry}
    (h : (w.writeEntry entry).run d = .ok w' d') : w'.finished = false := by
  obtain ⟨⟨⟩, mid, hassert, h₁⟩ := run_bind_eq_ok h
  obtain ⟨hunfinished, -⟩ := run_liftExec_eq_ok hassert
  have hopen : w.finished = false := by
    by_contra hfinished
    rw [assert, if_neg hfinished] at hunfinished
    cases hunfinished
  obtain ⟨⟨⟩, mid₁, -, h₂⟩ := run_bind_eq_ok h₁
  obtain ⟨⟨⟩, mid₂, -, h₃⟩ := run_bind_eq_ok h₂
  obtain ⟨entriesWritten, mid₃, -, h₄⟩ := run_bind_eq_ok h₃
  obtain ⟨index, mid₄, -, h₅⟩ := run_bind_eq_ok h₄
  obtain ⟨currSize, mid₅, -, h₆⟩ := run_bind_eq_ok h₅
  cases h₆
  exact hopen

/-- INTERNAL: there is always a segment that is being written, by induction on the entries.
SOURCE: level.rs:520-535 -/
theorem writeBuf_unfinished {targetSize : ℕ} {level : Sst.PartitionedLevel}
    {entries : List SsTableEntry} {out out' : Sst.Output}
    (h : out.segmentWriter.finished = false)
    (hrun : (Sst.writeBuf targetSize level entries out).run d = .ok out' d') :
    out'.segmentWriter.finished = false := by
  induction entries generalizing d out with
  | nil =>
    cases hrun
    exact h
  | cons entry entries ih =>
    rw [Sst.writeBuf] at hrun
    obtain ⟨reached, mid, -, h₁⟩ := run_bind_eq_ok hrun
    cases reached with
    | false =>
      obtain ⟨w, mid₁, hwrite, h₂⟩ := run_bind_eq_ok h₁
      exact @ih _ { out with segmentWriter := w } (writeEntry_unfinished hwrite) h₂
    | true =>
      obtain ⟨⟨w, s⟩, mid₁, -, h₂⟩ := run_bind_eq_ok h₁
      obtain ⟨w₁, mid₂, -, h₃⟩ := run_bind_eq_ok h₂
      obtain ⟨n, mid₃, -, h₄⟩ := run_bind_eq_ok h₃
      obtain ⟨w₂, mid₄, hwrite, h₅⟩ := run_bind_eq_ok h₄
      exact @ih _ ⟨w₂, n, out.res ++ [s]⟩ (writeEntry_unfinished hwrite) h₅

/-- INTERNAL: so it is after the rounds. -/
theorem mergeRounds_unfinished {orders : ℕ → Sst.IterationOrder} {targetSize limit fuel : ℕ}
    {level : Sst.PartitionedLevel} {readBufs : List Sst.SegmentReadBuf} {out out' : Sst.Output}
    (h : out.segmentWriter.finished = false)
    (hrun : (Sst.mergeRounds orders targetSize level limit fuel readBufs out).run d =
      .ok out' d') : out'.segmentWriter.finished = false := by
  induction fuel generalizing d out readBufs with
  | zero => cases hrun
  | succ fuel ih =>
    rw [Sst.mergeRounds] at hrun
    by_cases hempty : readBufs.isEmpty = true
    · rw [if_pos hempty] at hrun
      cases hrun
      exact h
    · rw [if_neg hempty] at hrun
      cases hsort : (Sst.mergeSort (orders fuel) limit (Sst.readBufRefs readBufs)).run readBufs with
      | error e bufs =>
        rw [hsort] at hrun
        cases hrun
      | ok entries bufs =>
        rw [hsort] at hrun
        obtain ⟨out₁, mid, hwrite, h₁⟩ := run_bind_eq_ok hrun
        obtain ⟨bufs', mid₁, -, h₂⟩ := run_bind_eq_ok h₁
        exact ih (writeBuf_unfinished h hwrite) h₂

/-- A merge of segments leaves a segment.
SOURCE: level.rs:479-555 -/
theorem mergeAndWriteTo_ne_nil {orders : ℕ → Sst.IterationOrder} {targetSize fuel : ℕ}
    {level : Sst.PartitionedLevel} {incoming newSegments : List Sst.Segment} (hne : incoming ≠ [])
    (hrun : (Sst.mergeAndWriteTo orders targetSize fuel level incoming).run d =
      .ok newSegments d') : newSegments ≠ [] := by
  unfold Sst.mergeAndWriteTo at hrun
  rw [if_neg (by rwa [List.isEmpty_iff])] at hrun
  obtain ⟨readBufLen, mid, -, h₁⟩ := run_bind_eq_ok hrun
  obtain ⟨n, mid₁, -, h₂⟩ := run_bind_eq_ok h₁
  obtain ⟨w, mid₂, hcreate, h₃⟩ := run_bind_eq_ok h₂
  obtain ⟨n', mid₃, -, h₄⟩ := run_bind_eq_ok h₃
  obtain ⟨readBufs, mid₄, -, h₅⟩ := run_bind_eq_ok h₄
  obtain ⟨out, mid₅, hrounds, h₆⟩ := run_bind_eq_ok h₅
  have hnew : w.finished = false := by
    obtain ⟨w₀, mid₆, hsegment, hreturn⟩ := run_bind_eq_ok hcreate
    cases hreturn
    obtain ⟨path, mid₇, -, hopened⟩ := run_bind_eq_ok hsegment
    obtain ⟨⟨⟩, mid₈, -, hrest⟩ := run_bind_eq_ok hopened
    cases hrest
    rfl
  rw [if_pos (mergeRounds_unfinished hnew hrounds)] at h₆
  obtain ⟨⟨w', s⟩, mid₆, -, h₇⟩ := run_bind_eq_ok h₆
  cases h₇
  exact List.concat_ne_nil s out.res

end

/-- INTERNAL: a merge that reads a segment raises the highest number of its level.
SOURCE: level.rs:441-477 -/
theorem mergeLevels_highest {orders : Sst.PartitionedLevel → List Sst.Segment → ℕ → Sst.IterationOrder}
    {fuel : ℕ} {level level' : Sst.PartitionedLevel} {incoming deleted : List Sst.Segment}
    {d d' : Dir} (h : (Sst.mergeLevels orders fuel level incoming).run d = .ok (level', deleted) d')
    (hne : deleted ≠ []) : ∃ s ∈ level'.segments, level.highestSegmentNumber < s.number := by
  obtain ⟨written, mid, hwrite, hreturn⟩ := run_bind_eq_ok h
  obtain ⟨-, hnew⟩ := mergeAndWriteTo_names hwrite
  cases hreturn
  obtain ⟨s, hs⟩ := List.exists_mem_of_ne_nil _ (mergeAndWriteTo_ne_nil hne hwrite)
  refine ⟨s, ?_, hnew.above s hs⟩
  exact (List.mergeSort_perm ..).mem_iff.mpr (List.mem_append_left _ hs)

end Rkvs.Analysis

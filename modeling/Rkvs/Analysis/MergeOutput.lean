import Rkvs.Analysis.BufferFill
import Rkvs.Analysis.FileLength
import Rkvs.Analysis.MergeNames
import Rkvs.Interface.LosslessMerge

/-!
# The output of a merge

The entries of a merge go to one segment after the other. A segment is finished before an entry that
comes when its target is reached, so it has an entry, and opens with what was written to it.
-/

set_option autoImplicit false

namespace Rkvs.Analysis

open Rkvs.Library Rkvs.Model Rkvs.Interface

/-! ## The length of a file -/

/-- INTERNAL: an index is no longer than the data.
SOURCE: level/segment.rs:504-519, 550-561 -/
theorem indexPlaces_length_le (offset : ℕ) (es : List SsTableEntry) :
    ((indexPlaces offset es).flatMap Sst.SegmentIndexEntry.toBytes).length ≤ framedBytes es := by
  induction es generalizing offset with
  | nil => exact Nat.zero_le _
  | cons e es ih =>
    have hone : (Sst.SegmentIndexEntry.toBytes ⟨e.key, offset⟩).length =
        (asBytes e.key).length + 16 := by
      unfold Sst.SegmentIndexEntry.toBytes
      simp
      omega
    have hge := len_ge e
    have hrest := ih (offset + (frame e).length)
    rw [indexPlaces, List.flatMap_cons, List.length_append, hone, framedBytes_cons]
    omega

theorem segmentBytes_short {es : List SsTableEntry} {indices : List Sst.SegmentIndexEntry}
    (h : indices.Sublist (indexPlaces 0 es)) :
    (segmentBytes es indices).length ≤ 2 * framedBytes es + 12 := by
  apply (segmentBytes_length_le h).trans
  have hindex := indexPlaces_length_le 0 es
  have hfooter : (Sst.footerToBytes (dataBlock es).length).length = 12 := by
    simp [Sst.footerToBytes, Sst.MAGIC_BYTES]
  unfold segmentBytes
  rw [List.length_append, List.length_append, hfooter, dataBlock_length]
  omega

/-! ## One segment -/

section
variable {w : Sst.SegmentWriter} {d : Dir} {es : List SsTableEntry}

/-- A writer compares what it has written with its target.
SOURCE: level/segment.rs:412-414 -/
theorem reachedTargetSize_ok (h : Writing w d es) (hshort : 2 * framedBytes es + 12 < 2 ^ 63) :
    ∃ reached, w.reachedTargetSize = .ok reached ∧
      (es = [] → (reached = true ↔ w.targetSize ≤ 12)) := by
  have hindex := indexLen_le_dataBlock h.index
  rw [dataBlock_length] at hindex
  have hdata := h.currSize
  rw [dataBlock_length] at hdata
  have hlen := h.len
  have hfooter : Sst.SEGMENT_FOOTER_LEN = 12 := rfl
  refine ⟨decide (w.targetSize ≤ w.currSize + w.index.len + 12), ?_, ?_⟩
  · unfold Sst.SegmentWriter.reachedTargetSize
    rw [checkedAdd_ok (by omega), exec_ok_bind, checkedAdd_ok (by omega), exec_ok_bind]
    rfl
  · rintro rfl
    have hzero : framedBytes [] = 0 := rfl
    have hstart : w.currSize + w.index.len + 12 = 12 := by omega
    rw [decide_eq_true_eq, hstart]

/-- A segment with entries is finished and opens.
SOURCE: level.rs:522-525; level/segment.rs:419-431 -/
theorem finishSegment_ok (h : Writing w d es) {levelNumber n : ℕ}
    (hname : Sst.Segment.determineSegmentFilename levelNumber n = .ok w.filepath)
    (hcalm : d.faults = []) (hne : es ≠ []) (hfits : ∀ e ∈ es, EntryFits e)
    (hshort : 2 * framedBytes es + 12 < 2 ^ 63) :
    ∃ w' s d', (Sst.finishSegment w).run d = .ok (w', s) d' ∧ WroteTo w.filepath d d' ∧
      Opened s es := by
  have hlong := segmentBytes_short h.index
  obtain ⟨w', d', hrun, hwrote, hpath, -, hcontent, hlen⟩ :=
    run_of_room (writeIndexAndFooter_runs h) hcalm not_false (by omega)
  obtain ⟨s, hopen, hopened, -⟩ := fromFile_opens (numbers_of_filename hname) hwrote.mem hcontent
    (hlen.trans (by norm_num)) hne hfits h.index
  refine ⟨w', s, d', ?_, hwrote, hopened⟩
  unfold Sst.finishSegment
  rw [run_bind_ok hrun, run_bind_ok (EStateM.run_get d'), hpath, hopen,
    run_bind_ok (run_liftExec_ok ..)]
  rfl

/-- A segment without entries does not open.
SOURCE: level/segment.rs:99-152 -/
theorem finishSegment_empty (h : Writing w d []) {w' : Sst.SegmentWriter} {s : Sst.Segment}
    {d' : Dir} : (Sst.finishSegment w).run d ≠ .ok (w', s) d' := by
  intro hrun
  obtain ⟨w₁, d₁, hfooter, hrest⟩ := run_bind_eq_ok hrun
  obtain ⟨hwrote, hpath, -, hcontent, -⟩ := (writeIndexAndFooter_runs h).ok hfooter
  have hnone : w.index.indices = [] := List.sublist_nil.mp h.index
  rw [hnone] at hcontent
  obtain ⟨d₂, _, hget, hrest⟩ := run_bind_eq_ok hrest
  cases hget
  obtain ⟨opened, _, hlift, hrest⟩ := run_bind_eq_ok hrest
  obtain ⟨hopened, -⟩ := run_liftExec_eq_ok hlift
  cases opened with
  | error e => cases hrest
  | ok t =>
    rw [hpath] at hopened
    unfold Sst.Segment.fromFile at hopened
    obtain ⟨numbers, -, hopened⟩ := exec_bind_eq_ok.mp hopened
    dsimp only at hopened
    rw [if_neg (not_not.mpr hwrote.mem), hcontent, if_neg (by decide), if_neg (by decide)] at hopened
    obtain ⟨_, -, h₁⟩ := exec_bind_eq_ok.mp hopened
    obtain ⟨_, -, h₂⟩ := exec_bind_eq_ok.mp h₁
    obtain ⟨_, -, h₃⟩ := exec_bind_eq_ok.mp h₂
    obtain ⟨e, hread, -⟩ := exec_bind_eq_ok.mp h₃
    have hpanics : Sst.Segment.readTableEntry (segmentBytes [] []) 0 = .error .panic := by decide
    rw [hpanics] at hread
    cases hread

/-- A new segment is opened for writing.
SOURCE: level/segment.rs:378-401 -/
theorem createSegment_ok {targetSize levelNumber n sparsity : ℕ}
    (hnumbers : levelNumber < 2 ^ 32 ∧ n < 2 ^ 32)
    (hfresh : ∀ path, Sst.Segment.determineSegmentFilename levelNumber n = .ok path →
      path ∉ d.names) (hcalm : d.faults = []) :
    ∃ w d', (Sst.createSegment targetSize levelNumber n sparsity).run d = .ok w d' ∧
      Writing w d' [] ∧ WroteTo w.filepath d d' ∧ w.indexSparsityFactor = sparsity ∧
      w.targetSize = targetSize ∧
      Sst.Segment.determineSegmentFilename levelNumber n = .ok w.filepath := by
  obtain ⟨w, d', hrun, hwriting, hwrote, hsparsity, -, hname⟩ :=
    run_of_room (createNewSegment_runs hfresh) hcalm (not_not.mpr hnumbers) not_false
  refine ⟨{ w with targetSize := targetSize }, d', run_bind_ok hrun, ?_, hwrote, hsparsity, rfl,
    hname⟩
  exact ⟨hwriting.content, hwriting.position, hwriting.currSize, hwriting.len, hwriting.index,
    hwriting.entriesWritten, hwriting.unfinished⟩

/-- An entry is written.
SOURCE: level/segment.rs:434-449 -/
theorem writeEntry_ok (h : Writing w d es) (e : SsTableEntry) (hcalm : d.faults = [])
    (hsparsity : w.indexSparsityFactor ≠ 0)
    (hshort : 2 * framedBytes (es ++ [e]) + 12 < 2 ^ 63) :
    ∃ w' d', (w.writeEntry e).run d = .ok w' d' ∧ Writing w' d' (es ++ [e]) ∧
      WroteTo w.filepath d d' ∧ w'.filepath = w.filepath ∧
      w'.indexSparsityFactor = w.indexSparsityFactor ∧ w'.targetSize = w.targetSize := by
  refine run_of_room (writeEntry_runs h e) hcalm hsparsity ?_
  rw [dataBlock_length]
  omega

end

/-! ## All segments -/

/-- INTERNAL: entries that can be written into new segments of a level. -/
structure Writable (level : Sst.PartitionedLevel) (es : List SsTableEntry) : Prop where
  fits : ∀ e ∈ es, EntryFits e
  short : 2 * framedBytes es + 12 < 2 ^ 63
  named : level.levelNumber < 2 ^ 32 ∧ level.highestSegmentNumber + es.length < 2 ^ 32

/-- INTERNAL: the entries `done` are in the segments that are finished, and `es` in the current
one. -/
structure OutputHolds (level : Sst.PartitionedLevel) (targetSize : ℕ) (d : Dir) (out : Sst.Output)
    (done es : List SsTableEntry) : Prop where
  calm : d.faults = []
  writing : Writing out.segmentWriter d es
  target : out.segmentWriter.targetSize = targetSize
  sparsity : out.segmentWriter.indexSparsityFactor = level.indexSparsityFactor
  name : Sst.Segment.determineSegmentFilename level.levelNumber
    (level.highestSegmentNumber + out.res.length + 1) = .ok out.segmentWriter.filepath
  number : out.newSegmentNumber = level.highestSegmentNumber + out.res.length + 2
  fresh : ∀ n path, out.newSegmentNumber ≤ n →
    Sst.Segment.determineSegmentFilename level.levelNumber n = .ok path → path ∉ d.names
  legible : ∀ s ∈ out.res, Legible s
  entries : allEntries out.res = done
  started : es = [] → done = []

/-- INTERNAL: segments with entries are no more than their entries. -/
theorem length_le_allEntries {segments : List Sst.Segment}
    (h : ∀ s ∈ segments, entriesOf s ≠ []) : segments.length ≤ (allEntries segments).length := by
  induction segments with
  | nil => exact Nat.zero_le _
  | cons s segments ih =>
    obtain ⟨hs, hrest⟩ := List.forall_mem_cons.mp h
    have hpos := List.length_pos_iff.mpr hs
    have hle := ih hrest
    have hall : allEntries (s :: segments) = entriesOf s ++ allEntries segments :=
      List.flatMap_cons
    rw [hall, List.length_cons, List.length_append]
    omega

theorem Writable.sublist {level : Sst.PartitionedLevel} {es fs : List SsTableEntry}
    (h : Writable level fs) (hsub : es.Sublist fs) : Writable level es := by
  have hbytes : framedBytes es ≤ framedBytes fs :=
    (hsub.map _).sum_le_sum fun _ _ => Nat.zero_le _
  have hlength := hsub.length_le
  have hshort := h.short
  have hnumbers := h.named.2
  exact ⟨fun e he => h.fits e (hsub.subset he), by omega, h.named.1, by omega⟩

/-- INTERNAL: segments of one level with different numbers have different names. -/
theorem filename_ne {levelNumber n m : ℕ} {path path' : String}
    (h : Sst.Segment.determineSegmentFilename levelNumber n = .ok path)
    (h' : Sst.Segment.determineSegmentFilename levelNumber m = .ok path') (hne : n ≠ m) :
    path ≠ path' := by
  rintro rfl
  exact hne (numbers_inj h h').2

section
variable {level : Sst.PartitionedLevel} {targetSize : ℕ} {d d' : Dir} {out : Sst.Output}
  {done es : List SsTableEntry}

/-- INTERNAL: the names of segments to come stay free. -/
theorem OutputHolds.fresh_of_wroteTo (h : OutputHolds level targetSize d out done es)
    (hwrote : WroteTo out.segmentWriter.filepath d d') {n : ℕ} {path : String}
    (hn : out.newSegmentNumber ≤ n)
    (hpath : Sst.Segment.determineSegmentFilename level.levelNumber n = .ok path) :
    path ∉ d'.names := by
  have hnumber := h.number
  rw [hwrote.names path (filename_ne hpath h.name (by omega))]
  exact h.fresh n path hn hpath

/-- INTERNAL: an entry goes to the current segment. -/
theorem OutputHolds.write (h : OutputHolds level targetSize d out done es) {e : SsTableEntry}
    (hsparsity : level.indexSparsityFactor ≠ 0) (hwritable : Writable level (es ++ [e])) :
    ∃ w d', (out.segmentWriter.writeEntry e).run d = .ok w d' ∧
      OutputHolds level targetSize d' { out with segmentWriter := w } done (es ++ [e]) := by
  obtain ⟨w, d', hrun, hwriting, hwrote, hpath, hfactor, htarget⟩ :=
    writeEntry_ok h.writing e h.calm (h.sparsity ▸ hsparsity) hwritable.short
  refine ⟨w, d', hrun, ⟨hwrote.faults h.calm, hwriting, htarget.trans h.target,
    hfactor.trans h.sparsity, h.name.trans (congrArg Except.ok hpath.symm), h.number,
    fun n path hn hname => h.fresh_of_wroteTo hwrote hn hname, h.legible, h.entries, ?_⟩⟩
  exact fun hnil => absurd hnil (List.append_ne_nil_of_right_ne_nil _ (List.cons_ne_nil _ _))

/-- INTERNAL: the current segment is finished, a new one is opened, and an entry goes there.
SOURCE: level.rs:521-534 -/
theorem OutputHolds.next (h : OutputHolds level targetSize d out done es) {e : SsTableEntry}
    (hsparsity : level.indexSparsityFactor ≠ 0) (hne : es ≠ [])
    (hwritable : Writable level (done ++ es ++ [e])) :
    ∃ w s d₁ w₂ d₂ w' d', (Sst.finishSegment out.segmentWriter).run d = .ok (w, s) d₁ ∧
      (Sst.createSegment targetSize level.levelNumber out.newSegmentNumber
        level.indexSparsityFactor).run d₁ = .ok w₂ d₂ ∧
      out.newSegmentNumber + 1 < 2 ^ 64 ∧ (w₂.writeEntry e).run d₂ = .ok w' d' ∧
      OutputHolds level targetSize d' ⟨w', out.newSegmentNumber + 1, out.res ++ [s]⟩ (done ++ es)
        [e] := by
  have hes : Writable level es := by
    apply hwritable.sublist
    exact (List.sublist_append_right ..).trans (List.sublist_append_left ..)
  have hone : Writable level [e] := hwritable.sublist (List.sublist_append_right ..)
  obtain ⟨w, s, d₁, hfinish, hwrote₁, hopened⟩ := finishSegment_ok h.writing h.name h.calm hne
    hes.fits hes.short
  have hnumber := h.number
  -- every finished segment has an entry, so their number stays below that of the entries
  have hres := length_le_allEntries fun s hs => legible_ne_nil (h.legible s hs)
  rw [h.entries] at hres
  have hpos := List.length_pos_iff.mpr hne
  obtain ⟨hlevel, hnumbers⟩ := hwritable.named
  rw [List.length_append, List.length_append, List.length_singleton] at hnumbers
  obtain ⟨w₂, d₂, hcreate, hwriting₂, hwrote₂, hfactor₂, htarget₂, hname₂⟩ :=
    @createSegment_ok d₁ targetSize level.levelNumber out.newSegmentNumber
      level.indexSparsityFactor ⟨hlevel, by omega⟩
      (fun path hpath => h.fresh_of_wroteTo hwrote₁ le_rfl hpath) (hwrote₁.faults h.calm)
  have hcalm₂ := hwrote₂.faults (hwrote₁.faults h.calm)
  obtain ⟨w', d', hrun, hwriting, hwrote, hpath, hfactor, htarget⟩ :=
    writeEntry_ok hwriting₂ e hcalm₂ (hfactor₂ ▸ hsparsity) hone.short
  have hlength : (out.res ++ [s]).length = out.res.length + 1 := List.length_append
  have hentries : allEntries (out.res ++ [s]) = done ++ es := by
    rw [allEntries_append, allEntries_singleton, entriesOf_opened hopened, h.entries]
  refine ⟨w, s, d₁, w₂, d₂, w', d', hfinish, hcreate, by omega, hrun, hwrote.faults hcalm₂,
    hwriting, htarget.trans htarget₂, hfactor.trans hfactor₂, ?_, ?_, ?_, ?_, hentries, ?_⟩
  · show Sst.Segment.determineSegmentFilename level.levelNumber
      (level.highestSegmentNumber + (out.res ++ [s]).length + 1) = .ok w'.filepath
    rw [hlength, hpath, ← hname₂, hnumber]
    rfl
  · show out.newSegmentNumber + 1 = level.highestSegmentNumber + (out.res ++ [s]).length + 2
    omega
  · intro n path hn hname
    have hn : out.newSegmentNumber + 1 ≤ n := hn
    have hother := filename_ne hname hname₂ (by omega)
    rw [hwrote.names path hother, hwrote₂.names path hother]
    exact h.fresh_of_wroteTo hwrote₁ (by omega) hname
  · intro t ht
    obtain ht | ht := List.mem_append.mp ht
    · exact h.legible t ht
    · rw [List.mem_singleton.mp ht]
      exact legible_of_opened hopened
  · exact fun hnil => absurd hnil (List.cons_ne_nil _ _)

end

/-- The entries of a merge are written behind what was written before. The induction is on the
entries; each of them goes to the current segment or to the next one.
SOURCE: level.rs:520-535 -/
theorem writeBuf_ok {level : Sst.PartitionedLevel} {targetSize : ℕ} (htarget : 12 < targetSize)
    (hsparsity : level.indexSparsityFactor ≠ 0) {entries : List SsTableEntry} {d : Dir}
    {out : Sst.Output} {done es : List SsTableEntry}
    (h : OutputHolds level targetSize d out done es)
    (hwritable : Writable level (done ++ es ++ entries)) :
    ∃ out' d' done' es', (Sst.writeBuf targetSize level entries out).run d = .ok out' d' ∧
      OutputHolds level targetSize d' out' done' es' ∧ done' ++ es' = done ++ es ++ entries := by
  induction entries generalizing d out done es with
  | nil => exact ⟨out, d, done, es, rfl, h, (List.append_nil _).symm⟩
  | cons e entries ih =>
    have hsplit : done ++ es ++ e :: entries = done ++ es ++ [e] ++ entries := by simp
    rw [hsplit] at hwritable ⊢
    have hnow : Writable level (done ++ es ++ [e]) :=
      hwritable.sublist (List.sublist_append_left ..)
    have hcurrent : Writable level (es ++ [e]) := by
      rw [List.append_assoc] at hnow
      exact hnow.sublist (List.sublist_append_right ..)
    obtain ⟨reached, hreached, hempty⟩ := reachedTargetSize_ok h.writing
      (hcurrent.sublist (List.sublist_append_left ..)).short
    cases reached with
    | true =>
      have hne : es ≠ [] := by
        intro hnil
        have hle := (hempty hnil).mp rfl
        rw [h.target] at hle
        exact absurd hle (not_le.mpr htarget)
      obtain ⟨w, s, d₁, w₂, d₂, w', d', hfinish, hcreate, hlt, hwrite, hnext⟩ :=
        h.next hsparsity hne hnow
      obtain ⟨out', d'', done', es', hrun, hfinal, hall⟩ := ih hnext hwritable
      refine ⟨out', d'', done', es', ?_, hfinal, hall⟩
      rw [Sst.writeBuf, hreached, run_bind_ok (run_liftExec_ok ..), if_pos rfl,
        run_bind_ok hfinish]
      dsimp only
      rw [run_bind_ok hcreate, checkedAdd_ok hlt, run_bind_ok (run_liftExec_ok ..),
        run_bind_ok hwrite]
      exact hrun
    | false =>
      obtain ⟨w, d₁, hwrite, hnext⟩ := h.write hsparsity hcurrent
      have hassoc : done ++ es ++ [e] ++ entries = done ++ (es ++ [e]) ++ entries := by simp
      rw [hassoc] at hwritable ⊢
      obtain ⟨out', d', done', es', hrun, hfinal, hall⟩ := ih hnext hwritable
      refine ⟨out', d', done', es', ?_, hfinal, hall⟩
      rw [Sst.writeBuf, hreached, run_bind_ok (run_liftExec_ok ..), if_neg Bool.false_ne_true,
        run_bind_ok hwrite]
      exact hrun

end Rkvs.Analysis

import Rkvs.Analysis.Cascade
import Rkvs.Analysis.MergeRounds

/-!
# What a merge writes

A merge need not return where segments share keys. Where it returns, the newest version of every key
is in its files, whatever the target of the files, the orders of the maps and the faults were. The
files are in the order of the keys if and only if the segments were merged in turn.
-/

set_option autoImplicit false

namespace Rkvs.Analysis

open Rkvs.Library Rkvs.Model Rkvs.Interface

/-! ## One segment -/

section
variable {w w' : Sst.SegmentWriter} {d d' : Dir} {es : List SsTableEntry} {n k : ℕ}

/-- INTERNAL: a new segment is empty, whatever its target and its index are.
SOURCE: level/segment.rs:378-401 -/
theorem createSegment_writing {targetSize sparsity : ℕ}
    (hfresh : ∀ path, Sst.Segment.determineSegmentFilename n k = .ok path → path ∉ d.names)
    (h : (Sst.createSegment targetSize n k sparsity).run d = .ok w d') :
    Writing w d' [] ∧ w.targetSize = targetSize := by
  obtain ⟨w₀, mid, hcreate, hreturn⟩ := run_bind_eq_ok h
  cases hreturn
  obtain ⟨hwriting, -⟩ := (createNewSegment_runs hfresh).ok hcreate
  exact ⟨⟨hwriting.content, hwriting.position, hwriting.currSize, hwriting.len, hwriting.index,
    hwriting.entriesWritten, hwriting.unfinished⟩, rfl⟩

/-- INTERNAL: a segment that was finished has entries, and holds them.
SOURCE: level.rs:522-525; level/segment.rs:419-431 -/
theorem finishSegment_opened (h : Writing w d es) {s : Sst.Segment}
    (hrun : (Sst.finishSegment w).run d = .ok (w', s) d')
    (hname : Sst.Segment.determineSegmentFilename n k = .ok w.filepath)
    (hfits : ∀ e ∈ es, EntryFits e) :
    es ≠ [] ∧ WroteTo w.filepath d d' ∧ Opened s es ∧ s.number = k ∧
      s.size = (segmentBytes es w.index.indices).length ∧
      (segmentBytes es w.index.indices).length < 2 ^ 63 := by
  have hne : es ≠ [] := by
    rintro rfl
    exact finishSegment_empty h hrun
  obtain ⟨hwrote, hopen⟩ := finishSegment_eq_ok hrun
  obtain ⟨w₁, d₁, hfooter, hrest⟩ := run_bind_eq_ok hrun
  obtain ⟨-, -, -, hcontent, hlong⟩ := (writeIndexAndFooter_runs h).ok hfooter
  -- nothing is written after the footer
  have hsame : d₁ = d' := by
    obtain ⟨d₂, _, hget, hrest⟩ := run_bind_eq_ok hrest
    cases hget
    obtain ⟨opened, _, hlift, hrest⟩ := run_bind_eq_ok hrest
    obtain ⟨-, rfl⟩ := run_liftExec_eq_ok hlift
    cases opened with
    | error e => cases hrest
    | ok t =>
      cases hrest
      rfl
  rw [hsame] at hcontent
  obtain ⟨t, hopened, hholds, -, -, -, hnumber, hsize⟩ := fromFile_opens (numbers_of_filename hname)
    hwrote.mem hcontent (hlong.trans (by norm_num)) hne hfits h.index
  cases hopen.symm.trans hopened
  exact ⟨hne, hwrote, hholds, hnumber, hsize, hlong⟩

end

/-! ## All segments -/

/-- INTERNAL: the entries `done` are in the segments that are finished, and `es` in the current one.
Nothing is said about the faults to come. -/
structure Holding (n : ℕ) (d : Dir) (out : Sst.Output) (done es : List SsTableEntry) : Prop where
  writing : Writing out.segmentWriter d es
  name : ∃ k, k < out.newSegmentNumber ∧
    Sst.Segment.determineSegmentFilename n k = .ok out.segmentWriter.filepath
  fresh : ∀ k ≥ out.newSegmentNumber, ∀ path,
    Sst.Segment.determineSegmentFilename n k = .ok path → path ∉ d.names
  legible : ∀ s ∈ out.res, Legible s
  entries : allEntries out.res = done

section
variable {level : Sst.PartitionedLevel} {targetSize n : ℕ} {d d' : Dir} {out out' : Sst.Output}
  {done es entries all : List SsTableEntry}

/-- INTERNAL: the names of segments to come stay free. -/
theorem Holding.fresh_of_wroteTo (h : Holding n d out done es)
    (hwrote : WroteTo out.segmentWriter.filepath d d') :
    ∀ k ≥ out.newSegmentNumber, ∀ path,
      Sst.Segment.determineSegmentFilename n k = .ok path → path ∉ d'.names := by
  intro k hk path hpath
  obtain ⟨current, hlt, hname⟩ := h.name
  rw [hwrote.names path (filename_ne hpath hname (by omega))]
  exact h.fresh k hk path hpath

/-- INTERNAL: an entry goes to the current segment. -/
theorem Holding.write (h : Holding n d out done es) {e : SsTableEntry} {w : Sst.SegmentWriter}
    (hrun : (out.segmentWriter.writeEntry e).run d = .ok w d') :
    Holding n d' { out with segmentWriter := w } done (es ++ [e]) := by
  obtain ⟨hwriting, hwrote, hpath, -⟩ := (writeEntry_runs h.writing e).ok hrun
  obtain ⟨current, hlt, hname⟩ := h.name
  exact ⟨hwriting, ⟨current, hlt, hname.trans (congrArg Except.ok hpath.symm)⟩,
    h.fresh_of_wroteTo hwrote, h.legible, h.entries⟩

/-- INTERNAL: the current segment is finished, a new one is opened, and an entry goes there.
SOURCE: level.rs:521-534 -/
theorem Holding.next (h : Holding n d out done es) {e : SsTableEntry} {sparsity : ℕ}
    (hfits : ∀ e ∈ es, EntryFits e) {w w₂ w' : Sst.SegmentWriter} {s : Sst.Segment} {d₁ d₂ : Dir}
    (hfinish : (Sst.finishSegment out.segmentWriter).run d = .ok (w, s) d₁)
    (hcreate : (Sst.createSegment targetSize n out.newSegmentNumber sparsity).run d₁ = .ok w₂ d₂)
    (hwrite : (w₂.writeEntry e).run d₂ = .ok w' d') :
    Holding n d' ⟨w', out.newSegmentNumber + 1, out.res ++ [s]⟩ (done ++ es) [e] := by
  obtain ⟨current, hlt, hname⟩ := h.name
  obtain ⟨-, hwrote₁, hopened, -⟩ := finishSegment_opened h.writing hfinish hname hfits
  have hfresh₁ := h.fresh_of_wroteTo hwrote₁
  obtain ⟨hwriting₂, -⟩ := createSegment_writing (hfresh₁ _ le_rfl) hcreate
  obtain ⟨hname₂, hwrote₂⟩ := createSegment_eq_ok hcreate
  obtain ⟨hwriting, hwrote, hpath, -⟩ := (writeEntry_runs hwriting₂ e).ok hwrite
  refine ⟨hwriting, ⟨_, Nat.lt_succ_self _, hname₂.trans (congrArg Except.ok hpath.symm)⟩,
    fun k hk path hpath => ?_, fun t ht => ?_, ?_⟩
  · have hk : out.newSegmentNumber + 1 ≤ k := hk
    have hother := filename_ne hpath hname₂ (by omega)
    rw [hwrote.names path hother, hwrote₂.names path hother]
    exact hfresh₁ k (by omega) path hpath
  · obtain ht | ht := List.mem_append.mp ht
    · exact h.legible t ht
    · rw [List.mem_singleton.mp ht]
      exact legible_of_opened hopened
  · rw [allEntries_append, allEntries_singleton, entriesOf_opened hopened, h.entries]

/-- INTERNAL: the entries of a merge are written behind what was written before. The induction is on
the entries.
SOURCE: level.rs:520-535 -/
theorem writeBuf_holding (h : Holding level.levelNumber d out done es)
    (hfits : ∀ e ∈ done ++ es ++ entries, EntryFits e)
    (hrun : (Sst.writeBuf targetSize level entries out).run d = .ok out' d') :
    ∃ done' es', Holding level.levelNumber d' out' done' es' ∧
      done' ++ es' = done ++ es ++ entries := by
  induction entries generalizing d out done es with
  | nil =>
    cases hrun
    exact ⟨done, es, h, (List.append_nil _).symm⟩
  | cons e entries ih =>
    have hsplit : done ++ es ++ e :: entries = done ++ es ++ [e] ++ entries := by simp
    rw [Sst.writeBuf] at hrun
    obtain ⟨reached, _, hlift, hrun⟩ := run_bind_eq_ok hrun
    obtain ⟨-, rfl⟩ := run_liftExec_eq_ok hlift
    cases reached with
    | true =>
      obtain ⟨⟨w, s⟩, d₁, hfinish, hrun⟩ := run_bind_eq_ok hrun
      obtain ⟨w₂, d₂, hcreate, hrun⟩ := run_bind_eq_ok hrun
      obtain ⟨number, _, hlift, hrun⟩ := run_bind_eq_ok hrun
      obtain ⟨hadd, rfl⟩ := run_liftExec_eq_ok hlift
      obtain ⟨rfl, -⟩ := checkedAdd_eq_ok hadd
      obtain ⟨w', d₃, hwrite, hrest⟩ := run_bind_eq_ok hrun
      have hnext := h.next (fun f hf => hfits f (by simp [hf])) hfinish hcreate hwrite
      rw [hsplit] at hfits ⊢
      exact ih hnext hfits hrest
    | false =>
      obtain ⟨w, d₁, hwrite, hrest⟩ := run_bind_eq_ok hrun
      have hassoc : done ++ es ++ [e] ++ entries = done ++ (es ++ [e]) ++ entries := by simp
      rw [hsplit, hassoc] at hfits ⊢
      exact ih (h.write hwrite) hfits hrest

/-- INTERNAL: the last segment is finished with what was written to it.
SOURCE: level.rs:547-554 -/
theorem finishOutput_holding (h : Holding n d out done es) (hfits : ∀ e ∈ es, EntryFits e)
    {segments : List Sst.Segment} (hrun : (finishOutput out).run d = .ok segments d') :
    allEntries segments = done ++ es ∧ ∀ s ∈ segments, Legible s := by
  unfold finishOutput at hrun
  rw [if_pos h.writing.unfinished] at hrun
  obtain ⟨⟨w, s⟩, d₁, hfinish, hreturn⟩ := run_bind_eq_ok hrun
  cases hreturn
  obtain ⟨current, -, hname⟩ := h.name
  obtain ⟨-, -, hopened, -⟩ := finishSegment_opened h.writing hfinish hname hfits
  refine ⟨?_, fun t ht => ?_⟩
  · rw [allEntries_append, allEntries_singleton, entriesOf_opened hopened, h.entries]
  · obtain ht | ht := List.mem_append.mp ht
    · exact h.legible t ht
    · rw [List.mem_singleton.mp ht]
      exact legible_of_opened hopened

end

/-! ## A merge -/

section
variable {level : Sst.PartitionedLevel} {segments out : List Sst.Segment} {targetSize fuel : ℕ}
  {orders : ℕ → Sst.IterationOrder} {d d' : Dir}

/-- INTERNAL: merged entries can be encoded. -/
theorem entryFits_of_merged {size : ℕ} {entries : List SsTableEntry}
    (hwhole : ∀ s ∈ segments, Whole s)
    (h : MergedFrom size (segments.map entriesOf) entries) : ∀ e ∈ entries, EntryFits e := by
  intro e he
  apply entryFits_of_whole hwhole
  rw [← allEntries_flatten]
  exact h.covers.done_mem e he

/-- INTERNAL: the files of a merge that returns hold the list of entries that its rounds have
written.
SOURCE: level.rs:479-555 -/
theorem mergeAndWriteTo_holds (h : Mergeable segments)
    (hfresh : ∀ k > level.highestSegmentNumber, ∀ path,
      Sst.Segment.determineSegmentFilename level.levelNumber k = .ok path → path ∉ d.names)
    (hrun : (Sst.mergeAndWriteTo orders targetSize fuel level segments).run d = .ok out d') :
    MergedFrom (Sst.MERGE_BUF_MAX_TOTAL_SIZE / segments.length + 1) (segments.map entriesOf)
      (allEntries out) ∧ ∀ s ∈ out, Legible s := by
  by_cases hne : segments = []
  · subst hne
    cases hrun
    exact ⟨MergedFrom.nil, fun _ hs => absurd hs List.not_mem_nil⟩
  obtain ⟨entries, w, d₁, last, d₂, hentries, hcreate, hwrite, hend⟩ :=
    mergeAndWriteTo_eq_ok h hne hrun
  obtain ⟨hwriting, -⟩ := createSegment_writing (hfresh _ (Nat.lt_succ_self _)) hcreate
  obtain ⟨hname, hwrote⟩ := createSegment_eq_ok hcreate
  have hstart : Holding level.levelNumber d₁ ⟨w, level.highestSegmentNumber + 2, []⟩ [] [] := by
    refine ⟨hwriting, ⟨_, Nat.lt_succ_self _, hname⟩, fun k hk path hpath => ?_,
      fun s hs => absurd hs List.not_mem_nil, rfl⟩
    have hk : level.highestSegmentNumber + 2 ≤ k := hk
    rw [hwrote.names path (filename_ne hpath hname (by omega))]
    exact hfresh k (by omega) path hpath
  have hfits := entryFits_of_merged h.whole hentries
  obtain ⟨done, es, hout, hall⟩ := writeBuf_holding hstart (by simpa using hfits) hwrite
  rw [List.append_nil, List.nil_append] at hall
  obtain ⟨hfinal, hlegible⟩ := finishOutput_holding hout
    (fun e he => hfits e (hall ▸ List.mem_append_right done he)) hend
  refine ⟨?_, hlegible⟩
  rw [hfinal, hall]
  exact hentries

/-- INTERNAL: files in the order of the keys are as they should be. -/
theorem mergedFiles_of_ascending (hlegible : ∀ s ∈ out, Legible s) (hasc : Ascending (allEntries out))
    (hcovers : PartlyMerged SsTableEntry.key SsTableEntry.sequenceNumber (allEntries segments)
      (allEntries out) []) : MergedFiles segments out := by
  refine ⟨fun s hs => stored_of_opened (hlegible s hs) ?_, hasc, hcovers.isNewest hasc⟩
  have hsub : (entriesOf s).Sublist (allEntries out) :=
    List.sublist_flatten_of_mem (List.mem_map_of_mem hs)
  exact List.Pairwise.sublist hsub hasc

/-- INTERNAL: so they are where the segments are merged in turn.
SOURCE: level.rs:479-555 -/
theorem mergeAndWriteTo_newest (h : Mergeable segments) (hturn : MergesInTurn segments)
    (hfresh : ∀ k > level.highestSegmentNumber, ∀ path,
      Sst.Segment.determineSegmentFilename level.levelNumber k = .ok path → path ∉ d.names)
    (hrun : (Sst.mergeAndWriteTo orders targetSize fuel level segments).run d = .ok out d') :
    MergedFiles segments out := by
  obtain ⟨hmerged, hlegible⟩ := mergeAndWriteTo_holds h hfresh hrun
  have hcovers := hmerged.covers
  rw [allEntries_flatten] at hcovers
  exact mergedFiles_of_ascending hlegible (hmerged.inTurn.mp hturn) hcovers

/-- The newest version of every key is in the files of a merge that returns, and nothing that was
not in its segments. They are in the order of the keys, with every key once, if and only if the
segments were merged in turn. The files are there to be opened, and all others are as they were.
SOURCE: level.rs:479-555 -/
theorem merge_writes_newest (h : Mergeable segments)
    (hfresh : ∀ k > level.highestSegmentNumber, ∀ path,
      Sst.Segment.determineSegmentFilename level.levelNumber k = .ok path → path ∉ d.names)
    (hrun : (Sst.mergeAndWriteTo orders targetSize fuel level segments).run d = .ok out d') :
    (∀ e ∈ allEntries out, e ∈ allEntries segments) ∧
      (∀ e ∈ allEntries segments, ∃ newest ∈ allEntries out,
        newest.key = e.key ∧ e.sequenceNumber ≤ newest.sequenceNumber) ∧
      (MergedFiles segments out ↔ MergesInTurn segments) ∧
      (∀ s ∈ out, Sst.Segment.fromFile d' s.filepath = .ok (.ok s)) ∧
      ∀ name ∈ d.names, name ∈ d'.names ∧ d'.content name = d.content name := by
  obtain ⟨hwrote, hnew⟩ := mergeAndWriteTo_names hrun
  obtain ⟨hmerged, -⟩ := mergeAndWriteTo_holds h hfresh hrun
  have hcovers := hmerged.covers
  rw [allEntries_flatten] at hcovers
  refine ⟨hcovers.done_mem, fun e he => ?_, ⟨fun hfiles => hmerged.inTurn.mpr hfiles.ascending,
    fun hturn => mergeAndWriteTo_newest h hturn hfresh hrun⟩, hnew.opened,
    fun name hname => ⟨hwrote.kept name hname, hwrote.content name ?_⟩⟩
  · obtain hnone | hfound := hcovers.covers e he
    · exact absurd hnone List.not_mem_nil
    · exact hfound
  · rintro ⟨k, hk, hpath⟩
    exact hfresh k hk name hpath hname

end

/-! ### Two segments that share a key -/

/-- A segment with an old version of "b". -/
def olderShared : Sst.Segment :=
  segmentHolding "" 0 1 [⟨"a", some "v", 1⟩, ⟨"b", some "v", 2⟩]

/-- A segment with a newer one, and a deletion. -/
def newerShared : Sst.Segment :=
  segmentHolding "" 0 2 [⟨"b", some "w", 3⟩, ⟨"c", none, 4⟩]

/-- INTERNAL: a segment of entries that can be checked. -/
theorem stored_of_checks {filepath : String} {levelNumber number : ℕ} {es : List SsTableEntry}
    (hne : es ≠ []) (hasc : es.Pairwise fun e f => e.key < f.key)
    (hfits : ∀ e ∈ es, e.len < 2 ^ 32 ∧ e.sequenceNumber < 2 ^ 64) :
    Stored (segmentHolding filepath levelNumber number es) es :=
  segmentHolding_stored hne hasc fun e he => ⟨(hfits e he).1, (hfits e he).2⟩

/-- INTERNAL: the two segments can be merged. -/
theorem shared_mergeable : Mergeable [olderShared, newerShared] := by
  have hfirst : Stored olderShared _ :=
    stored_of_checks (List.cons_ne_nil _ _) (by decide) (by decide)
  have hsecond : Stored newerShared _ :=
    stored_of_checks (List.cons_ne_nil _ _) (by decide) (by decide)
  have hall : allEntries [olderShared, newerShared] =
      [⟨"a", some "v", 1⟩, ⟨"b", some "v", 2⟩] ++ [⟨"b", some "w", 3⟩, ⟨"c", none, 4⟩] := by
    rw [← List.singleton_append, allEntries_append, allEntries_singleton, allEntries_singleton,
      entriesOf_eq hfirst, entriesOf_eq hsecond]
  refine ⟨fun s hs => ?_, ?_, ?_, fun s hs => ?_⟩
  · obtain rfl | rfl := List.mem_pair.mp hs
    · exact whole_of_stored hfirst
    · exact whole_of_stored hsecond
  · rw [hall]
    decide
  · rw [hall]
    decide
  · obtain rfl | rfl := List.mem_pair.mp hs <;> decide

/-- Both versions of "b" are written, so the two were not merged in turn. -/
theorem merge_writes_newest_shared :
    ∃ out d', (Sst.mergeAndWriteTo (fun _ => frontFirst) Sst.SEGMENT_SIZE 10 ⟨[], 1000, 1, 1⟩
        [olderShared, newerShared]).run Dir.empty = .ok out d' ∧
      allEntries out =
        [⟨"a", some "v", 1⟩, ⟨"b", some "w", 3⟩, ⟨"b", some "v", 2⟩, ⟨"c", none, 4⟩] ∧
      ¬MergesInTurn [olderShared, newerShared] := by
  have hentries : (resultOf (Sst.mergeAndWriteTo (fun _ => frontFirst) Sst.SEGMENT_SIZE 10
      ⟨[], 1000, 1, 1⟩ [olderShared, newerShared]) Dir.empty).map allEntries =
        some [⟨"a", some "v", 1⟩, ⟨"b", some "w", 3⟩, ⟨"b", some "v", 2⟩, ⟨"c", none, 4⟩] := by
    decide +kernel
  obtain ⟨out, hresult, hall⟩ := Option.map_eq_some_iff.mp hentries
  have hrun := run_of_result hresult
  obtain ⟨-, -, hiff, -⟩ := merge_writes_newest shared_mergeable
    (fun _ _ _ _ => List.not_mem_nil) hrun
  refine ⟨out, _, hrun, hall, fun hturn => ?_⟩
  have hasc := (hiff.mpr hturn).ascending
  rw [hall] at hasc
  revert hasc
  unfold Ascending
  decide

end Rkvs.Analysis

import Rkvs.Analysis.LosslessMerge
import Rkvs.Interface.CompactionEnds

/-!
# Segments that are copied

A writer of a new level indexes every entry, so how far it is with its target depends only on what
it has written. A segment that was written so, and is merged alone into another new level, is cut
nowhere, and its file gets the same length.
-/

set_option autoImplicit false

namespace Rkvs.Analysis

open Rkvs.Library Rkvs.Model Rkvs.Interface

/-! ## Lengths -/

/-- INTERNAL: the length that a writer expects of its file if every entry is in the index.
SOURCE: level/segment.rs:412-414 -/
def fullLength (es : List SsTableEntry) : ℕ :=
  (dataBlock es).length + indexLen (indexPlaces 0 es) + Sst.SEGMENT_FOOTER_LEN

/-- INTERNAL: the length of a file with every entry in the index. -/
def fileLength (es : List SsTableEntry) : ℕ := (segmentBytes es (indexPlaces 0 es)).length

/-- INTERNAL: a writer does not reach its target before any of the entries. -/
def Uncut (es : List SsTableEntry) : Prop :=
  ∀ front e rest, es = front ++ e :: rest → fullLength front < Sst.SEGMENT_SIZE

/-- INTERNAL: no entries are not cut. -/
theorem uncut_nil : Uncut [] := by
  intro front e rest hsplit
  cases front <;> cases hsplit

/-- INTERNAL: one entry more while the file is not full. -/
theorem Uncut.snoc {es : List SsTableEntry} (h : Uncut es)
    (hroom : fullLength es < Sst.SEGMENT_SIZE) (e : SsTableEntry) : Uncut (es ++ [e]) := by
  intro front f rest hsplit
  obtain ⟨more, hfront, hrest⟩ | ⟨more, hes, hrest⟩ := List.append_eq_append_iff.mp hsplit
  · cases more with
    | nil => rwa [hfront, List.append_nil]
    | cons x more =>
      have hlength := congrArg List.length hrest
      simp at hlength
  · cases more with
    | nil => rwa [← List.append_nil front, ← hes]
    | cons x more =>
      cases hrest
      exact h front f more hes

/-- INTERNAL: one entry is not cut. -/
theorem uncut_single (e : SsTableEntry) : Uncut [e] :=
  uncut_nil.snoc (show fullLength [] < Sst.SEGMENT_SIZE by decide) e

/-- INTERNAL: with a sparsity of one every entry is indexed. -/
theorem indexedPlaces_one (counter offset : ℕ) (es : List SsTableEntry) :
    indexedPlaces 1 counter offset es = indexPlaces offset es := by
  induction es generalizing counter offset with
  | nil => rfl
  | cons e es ih =>
    rw [indexedPlaces, if_pos (Nat.mod_one _), ih, indexPlaces, List.singleton_append]

/-! ## A writer of a new level -/

/-- INTERNAL: a writer has written the entries, and every one of them is in the index. -/
structure CopyWriting (w : Sst.SegmentWriter) (d : Dir) (es : List SsTableEntry) : Prop where
  writing : Writing w d es
  written : WrittenOver [] w d es
  sparsity : w.indexSparsityFactor = 1
  target : w.targetSize = Sst.SEGMENT_SIZE

section
variable {w w' : Sst.SegmentWriter} {d d' : Dir} {es : List SsTableEntry} {n k : ℕ}

/-- INTERNAL: the index of a copy that is being written. -/
theorem CopyWriting.indices (h : CopyWriting w d es) : w.index.indices = indexPlaces 0 es := by
  rw [h.written.indices, h.sparsity, indexedPlaces_one]
  rfl

/-- SOURCE: level/segment.rs:412-414 -/
theorem CopyWriting.reached (h : CopyWriting w d es) {reached : Bool}
    (hrun : w.reachedTargetSize = .ok reached) :
    reached = decide (Sst.SEGMENT_SIZE ≤ fullLength es) := by
  rw [reachedTargetSize_eq_ok hrun, h.target, expectedLength, h.writing.currSize, h.writing.len,
    h.indices]
  rfl

/-- SOURCE: level/segment.rs:378-401 -/
theorem createSegment_copying (h : (Sst.createSegment Sst.SEGMENT_SIZE n k 1).run d = .ok w d')
    (hfresh : ∀ path, Sst.Segment.determineSegmentFilename n k = .ok path → path ∉ d.names) :
    CopyWriting w d' [] := by
  obtain ⟨w₀, mid, hcreate, hreturn⟩ := run_bind_eq_ok h
  cases hreturn
  obtain ⟨hwriting, -, hsparsity, htarget, hname⟩ := (createNewSegment_runs hfresh).ok hcreate
  obtain ⟨-, -, hover⟩ := createNewSegment_over hcreate
  rw [content_of_not_mem (hfresh _ hname)] at hover
  exact ⟨⟨hwriting.content, hwriting.position, hwriting.currSize, hwriting.len, hwriting.index,
    hwriting.entriesWritten, hwriting.unfinished⟩, ⟨hover.content, hover.position, hover.currSize,
    hover.entriesWritten, hover.indices⟩, hsparsity, rfl⟩

/-- SOURCE: level/segment.rs:434-449 -/
theorem writeEntry_copying (h : CopyWriting w d es) {e : SsTableEntry}
    (hrun : (w.writeEntry e).run d = .ok w' d') :
    CopyWriting w' d' (es ++ [e]) ∧ w'.filepath = w.filepath ∧ WroteTo w.filepath d d' := by
  obtain ⟨hwriting, hwrote, hpath, hsparsity, htarget⟩ := (writeEntry_runs h.writing e).ok hrun
  obtain ⟨hover, -⟩ := writeEntry_over h.written hrun
  exact ⟨⟨hwriting, hover, hsparsity.trans h.sparsity, htarget.trans h.target⟩, hpath, hwrote⟩

/-- INTERNAL: a segment of a new level with the entries. -/
structure CopiedAs (s : Sst.Segment) (es : List SsTableEntry) : Prop where
  stored : Stored s es
  size : s.size = fileLength es
  uncut : Uncut es
  short : s.dataBlockEnd + 1 < 2 ^ 64

/-- A segment is finished and opens.
SOURCE: level.rs:522-525; level/segment.rs:419-431 -/
theorem finishSegment_copied (h : CopyWriting w d es) {s : Sst.Segment}
    (hrun : (Sst.finishSegment w).run d = .ok (w', s) d')
    (hname : Sst.Segment.determineSegmentFilename n k = .ok w.filepath) (hasc : Ascending es)
    (hfits : ∀ e ∈ es, EntryFits e) (huncut : Uncut es) :
    es ≠ [] ∧ CopiedAs s es ∧ s.number = k ∧ WroteTo w.filepath d d' := by
  obtain ⟨hne, hwrote, hopened, hnumber, hsize, hlong⟩ :=
    finishSegment_opened h.writing hrun hname hfits
  have hlength : (dataBlock es).length ≤ (segmentBytes es w.index.indices).length := by
    unfold segmentBytes
    rw [List.length_append, List.length_append]
    omega
  refine ⟨hne, ⟨stored_of_opened hopened hasc, ?_, huncut, ?_⟩, hnumber, hwrote⟩
  · rw [hsize, h.indices]
    rfl
  · rw [hopened.dataEnd]
    omega

end

/-! ## The segments of a new level -/

/-- INTERNAL: segments of a new level with the entries `done`, each cut where its target was
reached. -/
structure CutFiles (segments : List Sst.Segment) (done : List SsTableEntry) : Prop where
  copied : ∀ s ∈ segments, CopiedAs s (entriesOf s)
  full : ∀ s ∈ segments, Sst.SEGMENT_SIZE ≤ fullLength (entriesOf s)
  numbers : segments.map Sst.Segment.number = List.range' 1 segments.length
  entries : allEntries segments = done

/-- INTERNAL: besides, the entries `es` are in the segment that is written next. -/
structure CopyOutput (n : ℕ) (d : Dir) (out : Sst.Output) (done es : List SsTableEntry) : Prop where
  writing : CopyWriting out.segmentWriter d es
  name : Sst.Segment.determineSegmentFilename n (out.res.length + 1) =
    .ok out.segmentWriter.filepath
  number : out.newSegmentNumber = out.res.length + 2
  fresh : ∀ k ≥ out.newSegmentNumber, ∀ path,
    Sst.Segment.determineSegmentFilename n k = .ok path → path ∉ d.names
  uncut : Uncut es
  files : CutFiles out.res done

/-- INTERNAL: the numbers of one segment more. -/
theorem map_number_snoc {segments : List Sst.Segment} {s : Sst.Segment}
    (h : segments.map Sst.Segment.number = List.range' 1 segments.length)
    (hs : s.number = segments.length + 1) :
    (segments ++ [s]).map Sst.Segment.number = List.range' 1 (segments ++ [s]).length := by
  rw [List.map_append, h, List.map_singleton, hs, List.length_append, List.length_singleton,
    List.range'_1_concat, Nat.add_comm 1]

/-- INTERNAL: a copy holds its entries. -/
theorem entriesOf_copied {s : Sst.Segment} {es : List SsTableEntry} (h : CopiedAs s es) :
    CopiedAs s (entriesOf s) := by
  rwa [entriesOf_eq h.stored]

section
variable {n targetSize : ℕ} {d d' : Dir} {out out' : Sst.Output}
  {done es entries all : List SsTableEntry}

/-- INTERNAL: the names of segments to come stay free. -/
theorem CopyOutput.fresh_of_wroteTo (h : CopyOutput n d out done es)
    (hwrote : WroteTo out.segmentWriter.filepath d d') :
    ∀ k ≥ out.newSegmentNumber, ∀ path,
      Sst.Segment.determineSegmentFilename n k = .ok path → path ∉ d'.names := by
  intro k hk path hpath
  have hnumber := h.number
  rw [hwrote.names path (filename_ne hpath h.name (by omega))]
  exact h.fresh k hk path hpath

/-- INTERNAL: an entry goes to the current segment. -/
theorem CopyOutput.write (h : CopyOutput n d out done es) {e : SsTableEntry} {w : Sst.SegmentWriter}
    (hroom : fullLength es < Sst.SEGMENT_SIZE)
    (hrun : (out.segmentWriter.writeEntry e).run d = .ok w d') :
    CopyOutput n d' { out with segmentWriter := w } done (es ++ [e]) := by
  obtain ⟨hwriting, hpath, hwrote⟩ := writeEntry_copying h.writing hrun
  exact ⟨hwriting, h.name.trans (congrArg Except.ok hpath.symm), h.number,
    h.fresh_of_wroteTo hwrote, h.uncut.snoc hroom e, h.files⟩

/-- INTERNAL: the current segment is finished, a new one is opened, and an entry goes there.
SOURCE: level.rs:521-534 -/
theorem CopyOutput.next (h : CopyOutput n d out done es) {e : SsTableEntry}
    (hasc : Ascending es) (hfits : ∀ e ∈ es, EntryFits e)
    (hfull : Sst.SEGMENT_SIZE ≤ fullLength es) {w w₂ w' : Sst.SegmentWriter} {s : Sst.Segment}
    {d₁ d₂ : Dir} (hfinish : (Sst.finishSegment out.segmentWriter).run d = .ok (w, s) d₁)
    (hcreate : (Sst.createSegment Sst.SEGMENT_SIZE n out.newSegmentNumber 1).run d₁ = .ok w₂ d₂)
    (hwrite : (w₂.writeEntry e).run d₂ = .ok w' d') :
    CopyOutput n d' ⟨w', out.newSegmentNumber + 1, out.res ++ [s]⟩ (done ++ es) [e] := by
  obtain ⟨-, hcopied, hnumber, hwrote₁⟩ :=
    finishSegment_copied h.writing hfinish h.name hasc hfits h.uncut
  have hfresh₁ := h.fresh_of_wroteTo hwrote₁
  have hwriting₂ := createSegment_copying hcreate (hfresh₁ _ le_rfl)
  obtain ⟨hname₂, hwrote₂⟩ := createSegment_eq_ok hcreate
  obtain ⟨hwriting, hpath, hwrote⟩ := writeEntry_copying hwriting₂ hwrite
  have hnext := h.number
  have hlength : (out.res ++ [s]).length = out.res.length + 1 := List.length_append
  have hboth : ∀ {P : Sst.Segment → Prop}, (∀ t ∈ out.res, P t) → P s →
      ∀ t ∈ out.res ++ [s], P t := by
    intro P hres hs t ht
    obtain ht | ht := List.mem_append.mp ht
    · exact hres t ht
    · rwa [List.mem_singleton.mp ht]
  refine ⟨hwriting, ?_, ?_, fun k hk path hname => ?_, uncut_single e,
    ⟨hboth h.files.copied (entriesOf_copied hcopied), hboth h.files.full ?_,
      map_number_snoc h.files.numbers hnumber, ?_⟩⟩
  · show Sst.Segment.determineSegmentFilename n ((out.res ++ [s]).length + 1) = .ok w'.filepath
    rw [hlength, hpath, ← hname₂, hnext]
  · show out.newSegmentNumber + 1 = (out.res ++ [s]).length + 2
    omega
  · have hk : out.newSegmentNumber + 1 ≤ k := hk
    have hother := filename_ne hname hname₂ (by omega)
    rw [hwrote.names path hother, hwrote₂.names path hother]
    exact hfresh₁ k (by omega) path hname
  · rwa [entriesOf_eq hcopied.stored]
  · rw [allEntries_append, allEntries_singleton, entriesOf_eq hcopied.stored, h.files.entries]

/-- INTERNAL: what is written to a new level is cut where the target is reached. The induction is on
the entries.
SOURCE: level.rs:520-535 -/
theorem writeBuf_copied (h : CopyOutput n d out done es)
    (hasc : Ascending (done ++ es ++ entries)) (hfits : ∀ e ∈ done ++ es ++ entries, EntryFits e)
    (hrun : (Sst.writeBuf Sst.SEGMENT_SIZE (.new targetSize n) entries out).run d =
      .ok out' d') :
    ∃ done' es', CopyOutput n d' out' done' es' ∧ done' ++ es' = done ++ es ++ entries := by
  induction entries generalizing d out done es with
  | nil =>
    cases hrun
    exact ⟨done, es, h, (List.append_nil _).symm⟩
  | cons e entries ih =>
    have hsplit : done ++ es ++ e :: entries = done ++ es ++ [e] ++ entries := by simp
    rw [Sst.writeBuf] at hrun
    obtain ⟨reached, _, hlift, hrun⟩ := run_bind_eq_ok hrun
    obtain ⟨hreached, rfl⟩ := run_liftExec_eq_ok hlift
    have hdecide := h.writing.reached hreached
    cases reached with
    | true =>
      have hnow := (List.pairwise_append.mp (List.pairwise_append.mp hasc).1).2.1
      obtain ⟨⟨w, s⟩, d₁, hfinish, hrun⟩ := run_bind_eq_ok hrun
      obtain ⟨w₂, d₂, hcreate, hrun⟩ := run_bind_eq_ok hrun
      obtain ⟨number, _, hlift, hrun⟩ := run_bind_eq_ok hrun
      obtain ⟨hadd, rfl⟩ := run_liftExec_eq_ok hlift
      obtain ⟨rfl, -⟩ := checkedAdd_eq_ok hadd
      obtain ⟨w', d₃, hwrite, hrest⟩ := run_bind_eq_ok hrun
      have hnext := h.next hnow (fun f hf => hfits f (by simp [hf]))
        (of_decide_eq_true hdecide.symm) hfinish hcreate hwrite
      rw [hsplit] at hasc hfits ⊢
      exact ih hnext hasc hfits hrest
    | false =>
      obtain ⟨w, d₁, hwrite, hrest⟩ := run_bind_eq_ok hrun
      have hnext := h.write (Nat.lt_of_not_le (of_decide_eq_false hdecide.symm)) hwrite
      have hassoc : done ++ es ++ [e] ++ entries = done ++ (es ++ [e]) ++ entries := by simp
      rw [hsplit, hassoc] at hasc hfits ⊢
      exact ih hnext hasc hfits hrest

end

/-! ## A merge into a new level -/

/-- INTERNAL: the segments of a new level that a merge has written. -/
structure NewFiles (segments out : List Sst.Segment) : Prop where
  cut : ∃ front last, out = front ++ [last] ∧ CutFiles front (allEntries front) ∧
    CopiedAs last (entriesOf last) ∧ last.number = front.length + 1
  ascending : Ascending (allEntries out)
  members : ∀ e ∈ allEntries out, e ∈ allEntries segments
  perm : ((allEntries segments).map SsTableEntry.key).Nodup →
    (allEntries out).Perm (allEntries segments)

section
variable {segments out : List Sst.Segment} {n targetSize : ℕ} {d d' : Dir}

/-- A merge in turn into a new level writes its segments one after the other, each up to its target.
SOURCE: level.rs:479-555 -/
theorem mergeAndWrite_newFiles {orders : ℕ → Sst.IterationOrder} {fuel : ℕ}
    (h : Mergeable segments) (hturn : MergesInTurn segments) (hne : segments ≠ [])
    (hfresh : ∀ k path, Sst.Segment.determineSegmentFilename n k = .ok path → path ∉ d.names)
    (hrun : (Sst.mergeAndWrite orders fuel (.new targetSize n) segments).run d = .ok out d') :
    NewFiles segments out := by
  obtain ⟨entries, w, d₁, last, d₂, hmerged, hcreate, hwrite, hend⟩ :=
    mergeAndWriteTo_eq_ok h hne hrun
  have hwriting := createSegment_copying hcreate (hfresh _)
  obtain ⟨hname, hwrote⟩ := createSegment_eq_ok hcreate
  -- the first segment of a new level has number one
  have hname : Sst.Segment.determineSegmentFilename n 1 = .ok w.filepath := hname
  have hstart : CopyOutput n d₁ ⟨w, 2, []⟩ [] [] := by
    refine ⟨hwriting, hname, rfl, fun k hk path hpath => ?_, uncut_nil,
      ⟨fun s hs => absurd hs List.not_mem_nil, fun s hs => absurd hs List.not_mem_nil, rfl, rfl⟩⟩
    have hk : 2 ≤ k := hk
    rw [hwrote.names path (filename_ne hpath hname (by omega))]
    exact hfresh k path hpath
  have hasc := hmerged.inTurn.mp hturn
  have hfits := entryFits_of_merged h.whole hmerged
  have hcovers := hmerged.covers
  rw [allEntries_flatten] at hcovers
  obtain ⟨done, es, hout, hdone⟩ := writeBuf_copied hstart hasc hfits hwrite
  obtain rfl : entries = done ++ es := hdone.symm
  unfold finishOutput at hend
  rw [if_pos hout.writing.writing.unfinished] at hend
  obtain ⟨⟨w', s⟩, d₃, hfinish, hreturn⟩ := run_bind_eq_ok hend
  cases hreturn
  obtain ⟨-, hcopied, hnumber, -⟩ := finishSegment_copied hout.writing hfinish hout.name
    (List.pairwise_append.mp hasc).2.1 (fun e he => hfits e (List.mem_append_right _ he)) hout.uncut
  have hall : allEntries (last.res ++ [s]) = done ++ es := by
    rw [allEntries_append, allEntries_singleton, entriesOf_eq hcopied.stored, hout.files.entries]
  have hfiles : CutFiles last.res (allEntries last.res) :=
    ⟨hout.files.copied, hout.files.full, hout.files.numbers, rfl⟩
  refine ⟨⟨last.res, s, rfl, hfiles, entriesOf_copied hcopied, hnumber⟩, ?_, ?_, fun hnodup => ?_⟩
  · rwa [hall]
  · rw [hall]
    exact hcovers.done_mem
  · rw [hall]
    exact hcovers.perm hasc hnodup

end

end Rkvs.Analysis
